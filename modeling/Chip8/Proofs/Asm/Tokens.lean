import Chip8.Asm.Token
import Chip8.Proofs.Text.Numeral

/-! # Reading tokens

Which tokens a text is read as, apart from their places.

* **Faces.** The face of a token is its kind and its characters; the faces of a text do not depend on
  where the text starts (`faces_tokensFrom`).
* **Steps.** `faces_blank` and `faces_cons` go through a text from token to token.
* **Tokens.** There is one lemma for each kind of token that a listing has. Names, registers and numbers
  end where no part of a name follows (`Delimited`). -/

namespace Chip8.Asm

/-! ### Faces -/

/-- What a token is, wherever it is. -/
abbrev Face := TokenKind × List Char

def Token.face (t : Token) : Face := (t.kind, t.chars)

/-- The faces of the tokens of a text. -/
def faces (cs : List Char) : List Face := (tokensFrom 0 0 cs).map Token.face

theorem map_face_tokensFrom (skip offset offset' : Nat) (cs : List Char) :
    (tokensFrom skip offset cs).map Token.face = (tokensFrom skip offset' cs).map Token.face := by
  induction cs generalizing skip offset offset' with
  | nil => rfl
  | cons c cs ih =>
      cases skip with
      | succ skip => exact ih skip _ _
      | zero =>
          rw [tokensFrom, tokensFrom]
          split
          · exact ih 0 _ _
          · rw [List.map_cons, List.map_cons, ih]
            rfl

theorem faces_tokensFrom (offset : Nat) (cs : List Char) :
    (tokensFrom 0 offset cs).map Token.face = faces cs :=
  map_face_tokensFrom 0 offset 0 cs

/-! ### Steps -/

/-- The characters of a token read before are left out. -/
theorem tokensFrom_skip (offset : Nat) (taken rest : List Char) :
    tokensFrom taken.length offset (taken ++ rest) =
      tokensFrom 0 (offset + byteLength taken) rest := by
  induction taken generalizing offset with
  | nil => rfl
  | cons c cs ih =>
      rw [List.length_cons, List.cons_append, tokensFrom, ih, byteLength_cons, Nat.add_assoc]

theorem faces_nil : faces [] = [] := rfl

theorem faces_blank {c : Char} (hc : isBlank c = true) (cs : List Char) :
    faces (c :: cs) = faces cs := by
  rw [faces, tokensFrom]
  dsimp only
  rw [if_pos hc]
  exact faces_tokensFrom _ cs

/-- The first token, and then the tokens of what follows it. -/
theorem faces_cons {c : Char} {cs rest : List Char} {kind : TokenKind} (taken : List Char)
    (hc : isBlank c = false) (hscan : Lexeme.scan c cs = ⟨kind, c :: taken, rest⟩)
    (hcs : cs = taken ++ rest) : faces (c :: cs) = (kind, c :: taken) :: faces rest := by
  rw [faces, tokensFrom]
  dsimp only
  rw [hc, hscan, hcs]
  simp only [Bool.false_eq_true, if_false, List.map_cons, List.length_cons, Nat.add_sub_cancel]
  rw [tokensFrom_skip, faces_tokensFrom]
  rfl

/-! ### Tokens -/

/-- No part of a name comes first. -/
def Delimited (rest : List Char) : Prop := rest.head?.any isNamePart = false

theorem delimited_nil : Delimited [] := rfl

theorem delimited_cons {c : Char} (hc : isNamePart c = false) (cs : List Char) :
    Delimited (c :: cs) := hc

/-- A run of characters of a class ends where another character follows. -/
theorem takeWhile_of_stop {p : Char → Bool} {cs rest : List Char} (hcs : cs.all p = true)
    (hrest : rest.head?.any p = false) :
    (cs ++ rest).takeWhile p = cs ∧ (cs ++ rest).dropWhile p = rest := by
  have hstop : rest.takeWhile p = [] ∧ rest.dropWhile p = rest := by
    cases rest with
    | nil => exact ⟨rfl, rfl⟩
    | cons c rest =>
        have hc : p c = false := hrest
        simp [hc]
  have hall : ∀ c ∈ cs, p c = true := List.all_eq_true.mp hcs
  rw [List.takeWhile_append_of_pos hall, List.dropWhile_append_of_pos hall, hstop.1, hstop.2,
    List.append_nil]
  exact ⟨rfl, rfl⟩

theorem takeWhile_of_delimited {cs rest : List Char} (hcs : cs.all isNamePart = true)
    (hrest : Delimited rest) :
    (cs ++ rest).takeWhile isNamePart = cs ∧ (cs ++ rest).dropWhile isNamePart = rest :=
  takeWhile_of_stop hcs hrest

/-- A run of name characters ends where the name does. -/
theorem run_of_delimited {kind : TokenKind} {c : Char} {cs rest : List Char}
    (hcs : cs.all isNamePart = true) (hrest : Delimited rest) :
    Lexeme.run kind isNamePart c (cs ++ rest) = ⟨kind, c :: cs, rest⟩ := by
  obtain ⟨htake, hdrop⟩ := takeWhile_of_delimited hcs hrest
  rw [Lexeme.run, htake, hdrop]

/-- A character that starts a name and not a register. -/
def startsWord (c : Char) : Bool := isNameStart c && c ≠ 'v' && c ≠ 'V'

theorem isDigit_of_isNameStart {c : Char} (hc : isNameStart c = true) : c.isDigit = false := by
  rw [Bool.eq_false_iff]
  intro hdigit
  have hdigit' : '0'.val ≤ c.val ∧ c.val ≤ '9'.val := by
    simpa [Char.isDigit] using hdigit
  obtain ⟨hlow, hhigh⟩ := hdigit'
  have hlow' : 48 ≤ c.toNat := UInt32.le_iff_toNat_le.mp hlow
  have hhigh' : c.toNat ≤ 57 := UInt32.le_iff_toNat_le.mp hhigh
  unfold isNameStart at hc
  rw [Bool.or_eq_true, decide_eq_true_iff] at hc
  rcases hc with hc | rfl
  · rcases (Bool.or_eq_true _ _).mp hc with hupper | hlower
    · have hrange : c.val ≥ 'A'.val ∧ c.val ≤ 'Z'.val := of_decide_eq_true hupper
      have hletter : 65 ≤ c.toNat := UInt32.le_iff_toNat_le.mp hrange.1
      omega
    · have hstart : c.val ≥ 'a'.val := of_decide_eq_true (Bool.and_eq_true_iff.mp hlower).1
      have hletter : 97 ≤ c.toNat := UInt32.le_iff_toNat_le.mp hstart
      omega
  · exact absurd hhigh' (by decide)

theorem scan_of_startsWord {c : Char} (hc : startsWord c = true) (cs : List Char) :
    Lexeme.scan c cs = Lexeme.run .name isNamePart c cs := by
  have hstart : isNameStart c = true := by
    unfold startsWord at hc
    simp only [Bool.and_eq_true] at hc
    exact hc.1.1
  unfold Lexeme.scan
  split
  all_goals first | exact absurd hc (by decide) | skip
  rw [isDigit_of_isNameStart hstart, hstart]
  rfl

theorem not_isBlank_of_isNamePart {c : Char} (hc : isNamePart c = true) : isBlank c = false := by
  unfold isBlank
  simp only [Bool.or_eq_false_iff, decide_eq_false_iff_not]
  refine ⟨⟨?_, ?_⟩, ?_⟩ <;> rintro rfl <;> exact absurd hc (by decide)

theorem isNamePart_of_startsWord {c : Char} (hc : startsWord c = true) : isNamePart c = true := by
  unfold startsWord at hc
  simp only [Bool.and_eq_true] at hc
  exact isNamePart_of_isNameStart hc.1.1

/-- A name that does not start like a register. -/
theorem faces_word {c : Char} (cs : List Char) {rest : List Char} (hc : startsWord c = true)
    (hcs : cs.all isNamePart = true) (hrest : Delimited rest) :
    faces (c :: (cs ++ rest)) = (.name, c :: cs) :: faces rest := by
  refine faces_cons cs (not_isBlank_of_isNamePart (isNamePart_of_startsWord hc)) ?_ rfl
  rw [scan_of_startsWord hc]
  exact run_of_delimited hcs hrest

/-- A register, whose number is a hexadecimal digit. -/
theorem faces_register {c : Char} {k : Nat} {rest : List Char}
    (hc : Numeral.digit? 16 c = some k) (hrest : Delimited rest) :
    faces ('V' :: c :: rest) = (.register k.toUInt8, ['V', c]) :: faces rest := by
  refine faces_cons [c] rfl ?_ rfl
  show Lexeme.registerOrName 'V' (c :: rest) = _
  unfold Lexeme.registerOrName
  dsimp only
  rw [hc]
  dsimp only
  rw [if_neg (by rw [hrest]; decide)]

/-- A hexadecimal number. -/
theorem faces_hexadecimal {cs rest : List Char} (hcs : cs.all isNamePart = true)
    (hrest : Delimited rest) :
    faces ('0' :: 'x' :: (cs ++ rest)) =
      (.number .hexadecimal, '0' :: 'x' :: cs) :: faces rest := by
  refine faces_cons ('x' :: cs) rfl ?_ rfl
  obtain ⟨htake, hdrop⟩ := takeWhile_of_delimited hcs hrest
  show Lexeme.zero '0' ('x' :: (cs ++ rest)) = _
  unfold Lexeme.zero
  dsimp only
  rw [if_pos (Or.inl rfl), htake, hdrop]

theorem faces_comma (rest : List Char) : faces (',' :: rest) = (.comma, [',']) :: faces rest :=
  faces_cons [] rfl rfl rfl

theorem faces_bracketOpen (rest : List Char) :
    faces ('[' :: rest) = (.bracketOpen, ['[']) :: faces rest :=
  faces_cons [] rfl rfl rfl

theorem faces_bracketClose (rest : List Char) :
    faces (']' :: rest) = (.bracketClose, [']']) :: faces rest :=
  faces_cons [] rfl rfl rfl

theorem isNamePart_digitUpper : ∀ d < 16, isNamePart (Numeral.digitUpper d) = true := by
  decide

theorem all_isNamePart_hexUpper (width n : Nat) :
    (Numeral.hexUpper width n).toList.all isNamePart = true := by
  rw [List.all_eq_true]
  intro c hc
  obtain ⟨d, hd, rfl⟩ := Numeral.mem_hexUpper hc
  exact isNamePart_digitUpper d hd

end Chip8.Asm
