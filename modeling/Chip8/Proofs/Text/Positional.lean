import Chip8.Proofs.Text.Numeral
import Mathlib.Data.List.Forall2
import Mathlib.Data.Nat.Digits.Defs

/-! # What a numeral stands for

The numbers that users write, by the places of their digits and whatever their size.

* `Digits b cs n` says that characters are digits of a base and stand for `n`; `Spells cs n` adds
  the sign and the prefix that users may write. A text spells one number at most
  (`Spells.unique`).
* Reading takes the digits from the left and stops where the number gets too large. It gives the
  number that is spelled, if this is within the limit, and else nothing (`ofUser?_eq_some_iff`). -/

namespace Chip8.Numeral

variable {b limit n m : Nat} {cs : List Char}

/-! ### Digits -/

/-- The characters are digits of a base, at least one, and stand for a number by their places. -/
def Digits (b : Nat) (cs : List Char) (n : Nat) : Prop :=
  cs ≠ [] ∧ ∃ ds : List Nat,
    List.Forall₂ (fun c d => digit? b c = some d) cs ds ∧ n = Nat.ofDigits b ds.reverse

theorem Digits.unique (h : Digits b cs n) (h' : Digits b cs m) : n = m := by
  obtain ⟨-, ds, hds, rfl⟩ := h
  obtain ⟨-, es, hes, rfl⟩ := h'
  have hone : Relator.RightUnique fun c d => digit? b c = some d :=
    fun _ _ _ hd he => Option.some.inj (hd.symm.trans he)
  rw [List.right_unique_forall₂' hone hds hes]

/-- A further digit behind what was read, in front of the digits that follow. -/
theorem ofDigits_reverse_cons (b acc d : Nat) (ds : List Nat) :
    acc * b ^ (d :: ds).length + Nat.ofDigits b (d :: ds).reverse =
      (acc * b + d) * b ^ ds.length + Nat.ofDigits b ds.reverse := by
  rw [List.reverse_cons, Nat.ofDigits_append, Nat.ofDigits_singleton, List.length_reverse,
    List.length_cons, Nat.pow_succ]
  ring

/-- Reading on, `acc` being the number that was read so far. -/
theorem readFrom_eq_ok_iff (hb : 0 < b) {acc : Nat} (hacc : acc ≤ limit) :
    readFrom b limit acc cs = .ok n ↔
      ∃ ds : List Nat, List.Forall₂ (fun c d => digit? b c = some d) cs ds ∧
        n = acc * b ^ ds.length + Nat.ofDigits b ds.reverse ∧ n ≤ limit := by
  induction cs generalizing acc with
  | nil =>
      simp only [List.forall₂_nil_left_iff, exists_eq_left, readFrom, Except.ok.injEq]
      simp only [List.length_nil, Nat.pow_zero, Nat.mul_one, List.reverse_nil, Nat.ofDigits_nil,
        Nat.add_zero]
      omega
  | cons c cs ih =>
      rw [readFrom]
      simp only [List.forall₂_cons_left_iff]
      cases hd : digit? b c with
      | none =>
          refine iff_of_false (by simp) ?_
          rintro ⟨ds, ⟨d, es, hnone, -⟩, -⟩
          cases hnone
      | some d =>
          dsimp only
          split
          · rename_i hle
            rw [ih hle]
            constructor
            · rintro ⟨ds, hds, hn, hlimit⟩
              exact ⟨d :: ds, ⟨d, ds, rfl, hds, rfl⟩,
                hn.trans (ofDigits_reverse_cons b acc d ds).symm, hlimit⟩
            · rintro ⟨-, ⟨e, ds, hde, hds, rfl⟩, hn, hlimit⟩
              obtain rfl := Option.some.inj hde
              exact ⟨ds, hds, hn.trans (ofDigits_reverse_cons b acc d ds), hlimit⟩
          · -- What is too large here does not get smaller with the digits that follow.
            refine iff_of_false (by simp) ?_
            rintro ⟨-, ⟨e, ds, hde, -, rfl⟩, hn, hlimit⟩
            obtain rfl := Option.some.inj hde
            rw [ofDigits_reverse_cons] at hn
            have hgrows : acc * b + d ≤ (acc * b + d) * b ^ ds.length :=
              Nat.le_mul_of_pos_right _ (Nat.pow_pos hb)
            omega

theorem read_eq_ok_iff (hb : 0 < b) : read b limit cs = .ok n ↔ Digits b cs n ∧ n ≤ limit := by
  unfold read
  split
  · next hempty => simp [Digits, List.isEmpty_iff.mp hempty]
  · next hcs =>
      have hne : cs ≠ [] := fun h => hcs (List.isEmpty_iff.mpr h)
      rw [readFrom_eq_ok_iff hb (Nat.zero_le limit)]
      simp only [Nat.zero_mul, Nat.zero_add, Digits, ne_eq, hne, not_false_eq_true, true_and]
      constructor
      · rintro ⟨ds, hds, hn, hlimit⟩
        exact ⟨⟨ds, hds, hn⟩, hlimit⟩
      · rintro ⟨⟨ds, hds, hn⟩, hlimit⟩
        exact ⟨ds, hds, hn, hlimit⟩

/-- Digits begin with a digit. -/
theorem Digits.head (h : Digits b cs n) : ∃ c rest d, cs = c :: rest ∧ digit? b c = some d := by
  obtain ⟨hne, ds, hds, -⟩ := h
  cases hds with
  | nil => exact absurd rfl hne
  | cons hd _ => exact ⟨_, _, _, rfl, hd⟩

/-! ### Signs -/

/-- Digits behind at most one plus sign. -/
def Signed (b : Nat) (cs : List Char) (n : Nat) : Prop :=
  Digits b cs n ∨ ∃ rest, cs = '+' :: rest ∧ Digits b rest n

theorem digit?_sign (b : Nat) : digit? b '+' = none := by
  unfold digit?
  exact if_neg (Nat.lt_irrefl b)

/-- A sign is no digit. -/
theorem not_digits_sign (rest : List Char) : ¬ Digits b ('+' :: rest) n := by
  intro h
  obtain ⟨c, cs, d, heq, hd⟩ := h.head
  cases heq
  rw [digit?_sign] at hd
  cases hd

theorem Signed.unique (h : Signed b cs n) (h' : Signed b cs m) : n = m := by
  rcases h with h | ⟨rest, rfl, h⟩
  · rcases h' with h' | ⟨rest, rfl, -⟩
    · exact h.unique h'
    · exact absurd h (not_digits_sign rest)
  · rcases h' with h' | ⟨rest', heq, h'⟩
    · exact absurd h' (not_digits_sign rest)
    · cases heq
      exact h.unique h'

theorem readSigned_eq_ok_iff (hb : 0 < b) :
    readSigned b limit cs = .ok n ↔ Signed b cs n ∧ n ≤ limit := by
  unfold readSigned
  split
  · refine iff_of_false (by simp) ?_
    rintro ⟨h | ⟨rest, heq, h⟩, -⟩
    · exact not_digits_sign [] h
    · cases heq
      exact h.1 rfl
  · simp [Signed, not_digits_sign, read_eq_ok_iff hb]
  · next hsign =>
      have hno : ¬ ∃ rest, cs = '+' :: rest ∧ Digits b rest n :=
        fun ⟨rest, heq, _⟩ => hsign rest heq
      rw [read_eq_ok_iff hb, Signed, or_iff_left hno]

/-! ### Numbers of users -/

/-- A number of any size as users may write it: decimal, or hexadecimal behind `0x` or `0X`. -/
def Spells (cs : List Char) (n : Nat) : Prop :=
  Signed 10 cs n ∨ ∃ x rest, (x = 'x' ∨ x = 'X') ∧ cs = '0' :: x :: rest ∧ Signed 16 rest n

/-- What announces hexadecimal digits is no decimal number. -/
theorem not_signed_hexadecimal {x : Char} (hx : x = 'x' ∨ x = 'X') (rest : List Char) :
    ¬ Signed 10 ('0' :: x :: rest) n := by
  have hnone : digit? 10 x = none := by
    rcases hx with rfl | rfl <;> decide
  rintro (⟨-, ds, hds, -⟩ | ⟨sign, heq, -⟩)
  · cases hds with
    | cons _ htail =>
        cases htail with
        | cons hd _ => exact absurd (hnone.symm.trans hd) nofun
  · cases heq

/-- A text spells one number at most. -/
theorem Spells.unique (h : Spells cs n) (h' : Spells cs m) : n = m := by
  rcases h with h | ⟨x, rest, hx, rfl, h⟩
  · rcases h' with h' | ⟨x, rest, hx, rfl, -⟩
    · exact h.unique h'
    · exact absurd h (not_signed_hexadecimal hx rest)
  · rcases h' with h' | ⟨x', rest', -, heq, h'⟩
    · exact absurd h' (not_signed_hexadecimal hx rest)
    · cases heq
      exact h.unique h'

theorem toOption_eq_some_iff {α : Type} {r : Except Fault α} {a : α} :
    r.toOption = some a ↔ r = .ok a := by
  cases r <;> simp [Except.toOption]

/-- Behind the prefix, a number is what its hexadecimal digits are. -/
theorem spells_hexadecimal_iff {x : Char} (hx : x = 'x' ∨ x = 'X') (rest : List Char) :
    Spells ('0' :: x :: rest) n ↔ Signed 16 rest n := by
  constructor
  · rintro (h | ⟨x', rest', -, heq, h⟩)
    · exact absurd h (not_signed_hexadecimal hx rest)
    · cases heq
      exact h
  · exact fun h => .inr ⟨x, rest, hx, rfl, h⟩

/-- What users write is read as the number that it spells, if this is a 64-bit word, and else not
at all. -/
theorem ofUser?_eq_some_iff : ofUser? cs = some n ↔ Spells cs n ∧ n ≤ wordMax := by
  unfold ofUser?
  split
  · rw [toOption_eq_some_iff, readSigned_eq_ok_iff (by decide), spells_hexadecimal_iff (.inl rfl)]
  · rw [toOption_eq_some_iff, readSigned_eq_ok_iff (by decide), spells_hexadecimal_iff (.inr rfl)]
  · next hlower hupper =>
      have hno : ¬ ∃ x rest, (x = 'x' ∨ x = 'X') ∧ cs = '0' :: x :: rest ∧ Signed 16 rest n := by
        rintro ⟨x, rest, rfl | rfl, heq, -⟩
        · exact hlower rest heq
        · exact hupper rest heq
      rw [toOption_eq_some_iff, readSigned_eq_ok_iff (by decide), Spells, or_iff_left hno]

/-- What spells no number, or one that is too large, is not read. -/
theorem ofUser?_eq_none (h : ∀ n, Spells cs n → wordMax < n) : ofUser? cs = none := by
  rw [Option.eq_none_iff_forall_not_mem]
  intro n hn
  obtain ⟨hspells, hle⟩ := ofUser?_eq_some_iff.mp hn
  exact Nat.not_lt_of_le hle (h n hspells)

theorem isDigit_of_digit? {c : Char} {d : Nat} (h : digit? 10 c = some d) : c.isDigit = true := by
  unfold digit? at h
  have hrange : '0' ≤ c ∧ c ≤ '9' := by grind
  exact Bool.and_eq_true_iff.mpr ⟨decide_eq_true hrange.1, decide_eq_true hrange.2⟩

/-- A number begins with a decimal digit or a plus sign. -/
theorem Spells.head (h : Spells cs n) :
    ∃ c rest, cs = c :: rest ∧ (c = '+' ∨ c.isDigit = true) := by
  rcases h with (h | ⟨rest, rfl, -⟩) | ⟨x, rest, -, rfl, -⟩
  · obtain ⟨c, rest, d, rfl, hd⟩ := h.head
    exact ⟨c, rest, rfl, .inr (isDigit_of_digit? hd)⟩
  · exact ⟨'+', rest, rfl, .inl rfl⟩
  · exact ⟨'0', x :: rest, rfl, .inr (by decide)⟩

end Chip8.Numeral
