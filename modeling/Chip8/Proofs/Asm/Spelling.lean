import Chip8.Asm.Statement

/-! # Spelling

What the assembler reads in the same way in any letter case.

* **Characters.** Raising a letter to upper case keeps it in the classes that tokens are made of.
* **Words.** Two words are `SpelledAlike` if they differ in letter case only. Such words are the
  same keyword, mnemonic, directive and number, and both or neither are names. -/

namespace Chip8.Asm

/-! ### Characters -/

theorem toNat_toUpper (c : Char) :
    c.toUpper.toNat = if 97 ≤ c.toNat ∧ c.toNat ≤ 122 then c.toNat - 32 else c.toNat := by
  have hlower : ('a'.val ≤ c.val ∧ c.val ≤ 'z'.val) ↔ 97 ≤ c.toNat ∧ c.toNat ≤ 122 := Iff.rfl
  unfold Char.toUpper
  split
  · rename_i h
    rw [if_pos (hlower.mp h)]
    have hrange := hlower.mp h
    show (c.val + ('A'.val - 'a'.val)).toNat = _
    rw [UInt32.toNat_add]
    show (c.toNat + 4294967264) % 4294967296 = _
    omega
  · rename_i h
    rw [if_neg fun hrange => h (hlower.mpr hrange)]

theorem toNat_toLower (c : Char) :
    c.toLower.toNat = if 65 ≤ c.toNat ∧ c.toNat ≤ 90 then c.toNat + 32 else c.toNat := by
  have hupper : (c.val ≥ 'A'.val ∧ c.val ≤ 'Z'.val) ↔ 65 ≤ c.toNat ∧ c.toNat ≤ 90 := Iff.rfl
  unfold Char.toLower
  split
  · rename_i h
    rw [if_pos (hupper.mp h)]
    have hrange := hupper.mp h
    show (c.val + ('a'.val - 'A'.val)).toNat = _
    rw [UInt32.toNat_add]
    show (c.toNat + 32) % 4294967296 = _
    omega
  · rename_i h
    rw [if_neg fun hrange => h (hupper.mpr hrange)]

theorem toLower_toUpper (c : Char) : c.toUpper.toLower = c.toLower := by
  apply Char.toNat_inj.mp
  rw [toNat_toLower, toNat_toLower, toNat_toUpper]
  grind

theorem toUpper_toUpper (c : Char) : c.toUpper.toUpper = c.toUpper := by
  apply Char.toNat_inj.mp
  rw [toNat_toUpper, toNat_toUpper]
  grind

theorem isAlpha_iff (c : Char) :
    c.isAlpha = true ↔ 65 ≤ c.toNat ∧ c.toNat ≤ 90 ∨ 97 ≤ c.toNat ∧ c.toNat ≤ 122 := by
  have hupper : c.isUpper = true ↔ 65 ≤ c.toNat ∧ c.toNat ≤ 90 := decide_eq_true_iff
  have hlower : c.isLower = true ↔ 97 ≤ c.toNat ∧ c.toNat ≤ 122 :=
    (Bool.and_eq_true_iff).trans (and_congr decide_eq_true_iff decide_eq_true_iff)
  exact (Bool.or_eq_true_iff).trans (or_congr hupper hlower)

/-- A character that is no letter comes from itself only. -/
theorem toUpper_eq_iff {k : Char} (hk : k.isAlpha = false) (c : Char) : c.toUpper = k ↔ c = k := by
  have hletter : ¬ (65 ≤ k.toNat ∧ k.toNat ≤ 90) ∧ ¬ (97 ≤ k.toNat ∧ k.toNat ≤ 122) := by
    rwa [← not_or, ← isAlpha_iff, Bool.not_eq_true]
  rw [← Char.toNat_inj, ← Char.toNat_inj, toNat_toUpper]
  split <;> omega

theorem isDigit_iff (c : Char) : c.isDigit = true ↔ 48 ≤ c.toNat ∧ c.toNat ≤ 57 := by
  rw [Char.isDigit, Bool.and_eq_true, decide_eq_true_iff, decide_eq_true_iff]
  exact Iff.rfl

theorem isNamePart_iff (c : Char) :
    isNamePart c = true ↔ 65 ≤ c.toNat ∧ c.toNat ≤ 90 ∨ 97 ≤ c.toNat ∧ c.toNat ≤ 122 ∨
      48 ≤ c.toNat ∧ c.toNat ≤ 57 ∨ c.toNat = 95 := by
  have hline : c = '_' ↔ c.toNat = 95 := Char.toNat_inj.symm
  simp only [isNamePart, Char.isAlphanum, Bool.or_eq_true, isAlpha_iff, isDigit_iff,
    decide_eq_true_iff, hline, or_assoc]

theorem isNameStart_iff (c : Char) :
    isNameStart c = true ↔ 65 ≤ c.toNat ∧ c.toNat ≤ 90 ∨ 97 ≤ c.toNat ∧ c.toNat ≤ 122 ∨
      c.toNat = 95 := by
  have hline : c = '_' ↔ c.toNat = 95 := Char.toNat_inj.symm
  simp only [isNameStart, Bool.or_eq_true, isAlpha_iff, decide_eq_true_iff, hline, or_assoc]

theorem isNamePart_toUpper (c : Char) : isNamePart c.toUpper = isNamePart c := by
  rw [Bool.eq_iff_iff, isNamePart_iff, isNamePart_iff, toNat_toUpper]
  split <;> omega

theorem isNameStart_toUpper (c : Char) : isNameStart c.toUpper = isNameStart c := by
  rw [Bool.eq_iff_iff, isNameStart_iff, isNameStart_iff, toNat_toUpper]
  split <;> omega

theorem isDigit_toUpper (c : Char) : c.toUpper.isDigit = c.isDigit := by
  rw [Bool.eq_iff_iff, isDigit_iff, isDigit_iff, toNat_toUpper]
  split <;> omega

theorem isBlank_toUpper (c : Char) : isBlank c.toUpper = isBlank c := by
  unfold isBlank
  simp only [toUpper_eq_iff (k := ' ') (by decide), toUpper_eq_iff (k := '\t') (by decide),
    toUpper_eq_iff (k := '\r') (by decide)]

theorem utf8Size_toUpper (c : Char) : c.toUpper.utf8Size = c.utf8Size := by
  by_cases h : 97 ≤ c.toNat ∧ c.toNat ≤ 122
  · have hupper : c.toUpper.toNat = c.toNat - 32 := by rw [toNat_toUpper, if_pos h]
    have hsmall : ∀ d : Char, d.toNat ≤ 127 → d.utf8Size = 1 := fun d hd => if_pos hd
    rw [hsmall c (by omega), hsmall c.toUpper (by omega)]
  · have hsame : c.toUpper = c := by
      apply Char.toNat_inj.mp
      rw [toNat_toUpper, if_neg h]
    rw [hsame]

theorem digit?_toUpper (b : Nat) (c : Char) : Numeral.digit? b c.toUpper = Numeral.digit? b c := by
  have hle : ∀ d e : Char, d ≤ e ↔ d.toNat ≤ e.toNat := fun _ _ => Iff.rfl
  unfold Numeral.digit?
  simp only [hle, toNat_toUpper]
  show (if (if 48 ≤ _ ∧ _ ≤ 57 then _ - 48 else if 97 ≤ _ ∧ _ ≤ 122 then _ - 97 + 10
      else if 65 ≤ _ ∧ _ ≤ 90 then _ - 65 + 10 else b) < b then some _ else none) =
    (if (if 48 ≤ _ ∧ _ ≤ 57 then _ - 48 else if 97 ≤ _ ∧ _ ≤ 122 then _ - 97 + 10
      else if 65 ≤ _ ∧ _ ≤ 90 then _ - 65 + 10 else b) < b then some _ else none)
  grind

/-! ### Words -/

/-- The words differ in letter case only. -/
def SpelledAlike (w w' : List Char) : Prop := w.map Char.toUpper = w'.map Char.toUpper

namespace SpelledAlike

variable {w w' : List Char}

theorem refl (w : List Char) : SpelledAlike w w := rfl

theorem upper (w : List Char) : SpelledAlike w (w.map Char.toUpper) := by
  rw [SpelledAlike, List.map_map]
  exact List.map_congr_left fun c _ => (toUpper_toUpper c).symm

theorem drop (h : SpelledAlike w w') (n : Nat) : SpelledAlike (w.drop n) (w'.drop n) := by
  rw [SpelledAlike, List.map_drop, List.map_drop, h]

/-- What does not change under raising letters does not tell the words apart. -/
theorem congr {α : Type} {f : List Char → α} (hf : ∀ v, f (v.map Char.toUpper) = f v)
    (h : SpelledAlike w w') : f w = f w' := by
  rw [← hf w, ← hf w', h]

theorem keyword (h : SpelledAlike w w') : Keyword.ofWord? w = Keyword.ofWord? w' := by
  unfold Keyword.ofWord?
  rw [h]

theorem isNamed (h : SpelledAlike w w') (form : Form) : form.isNamed w = form.isNamed w' := by
  unfold Form.isNamed
  rw [h]

theorem isMnemonic (h : SpelledAlike w w') : Asm.isMnemonic w = Asm.isMnemonic w' := by
  unfold Asm.isMnemonic
  simp only [h.isNamed]

theorem formsNamed (h : SpelledAlike w w') : Asm.formsNamed w = Asm.formsNamed w' := by
  unfold Asm.formsNamed
  simp only [h.isNamed]

theorem lower (h : SpelledAlike w w') : w.map Char.toLower = w'.map Char.toLower := by
  refine h.congr fun v => ?_
  rw [List.map_map]
  exact List.map_congr_left fun c _ => toLower_toUpper c

theorem all_map_toUpper {p : Char → Bool} (hp : ∀ c, p c.toUpper = p c) (v : List Char) :
    (v.map Char.toUpper).all p = v.all p := by
  rw [List.all_map]
  exact congrArg v.all (funext hp)

theorem isIdentifier (h : SpelledAlike w w') : Asm.isIdentifier w = Asm.isIdentifier w' := by
  refine h.congr fun v => ?_
  cases v with
  | nil => rfl
  | cons c cs =>
      rw [List.map_cons, Asm.isIdentifier, Asm.isIdentifier, isNameStart_toUpper,
        all_map_toUpper isNamePart_toUpper]

theorem readFrom_map_toUpper (b limit acc : Nat) (v : List Char) :
    Numeral.readFrom b limit acc (v.map Char.toUpper) = Numeral.readFrom b limit acc v := by
  induction v generalizing acc with
  | nil => rfl
  | cons c cs ih =>
      rw [List.map_cons, Numeral.readFrom, Numeral.readFrom, digit?_toUpper]
      simp only [ih]

theorem number (h : SpelledAlike w w') (b limit : Nat) :
    Numeral.read b limit w = Numeral.read b limit w' := by
  refine h.congr fun v => ?_
  rw [Numeral.read, Numeral.read, readFrom_map_toUpper, List.isEmpty_map]

end SpelledAlike

end Chip8.Asm
