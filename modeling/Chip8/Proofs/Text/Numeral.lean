import Chip8.Text.Numeral

/-! # Numerals are read back

Writing a number and reading the numeral gives the number.

* `readFrom_digits` is about any base, and about any spelling of the digits that is read as them;
  the induction is on the number of digits.
* `read_hexUpper` is about the hexadecimal constants of listings, with their zeros in front.
* `ofUser?_decimal` and `ofUser?_hex` are about the two ways in which users write numbers. Whatever
  they write, what is read is a 64-bit word (`ofUser?_le`). -/

namespace Chip8.Numeral

variable {b limit n : Nat}

theorem readFrom_append {acc a : Nat} {cs ds : List Char} (h : readFrom b limit acc cs = .ok a) :
    readFrom b limit acc (cs ++ ds) = readFrom b limit a ds := by
  induction cs generalizing acc with
  | nil =>
      cases h
      rfl
  | cons c cs ih =>
      rw [List.cons_append]
      rw [readFrom] at h ⊢
      cases hd : digit? b c with
      | none =>
          rw [hd] at h
          cases h
      | some d =>
          rw [hd] at h
          dsimp only at h ⊢
          split at h
          · rename_i hle
            rw [if_pos hle]
            exact ih h
          · cases h

/-- One more digit. -/
theorem readFrom_digit {acc d : Nat} {c : Char} (hd : digit? b c = some d)
    (hle : acc * b + d ≤ limit) : readFrom b limit acc [c] = .ok (acc * b + d) := by
  rw [readFrom, hd]
  dsimp only
  rw [if_pos hle, readFrom]

theorem digits_eq (hb : 1 < b) :
    digits b n =
      if n < b then [Nat.digitChar n] else digits b (n / b) ++ [Nat.digitChar (n % b)] :=
  Nat.toDigits_eq_if hb

/-- The digits of a number are read as the number. -/
theorem readFrom_digits (hb : 1 < b) {spell : Char → Char}
    (hspell : ∀ d < b, digit? b (spell (Nat.digitChar d)) = some d) (hn : n ≤ limit) :
    readFrom b limit 0 ((digits b n).map spell) = .ok n := by
  induction n using Nat.strongRecOn with
  | ind n ih =>
      rw [digits_eq hb]
      split
      · rename_i hlt
        rw [List.map_singleton, readFrom_digit (hspell n hlt) (by omega)]
        simp
      · rename_i hge
        have hdiv : n / b * b + n % b = n := by
          rw [Nat.mul_comm]
          exact Nat.div_add_mod n b
        have hsmall : n / b < n := Nat.div_lt_self (by omega) hb
        have hhead := ih (n / b) hsmall (by omega)
        rw [List.map_append, List.map_singleton, readFrom_append hhead,
          readFrom_digit (hspell (n % b) (Nat.mod_lt n (by omega))) (by omega), hdiv]

/-- Zeros in front do not count. -/
theorem readFrom_zeros (hb : 0 < b) (k : Nat) (cs : List Char) :
    readFrom b limit 0 (List.replicate k '0' ++ cs) = readFrom b limit 0 cs := by
  have hzero : digit? b '0' = some 0 := by
    unfold digit?
    exact if_pos hb
  induction k with
  | zero => rfl
  | succ k ih =>
      rw [List.replicate_succ, List.cons_append, readFrom, hzero]
      dsimp only
      rw [Nat.zero_mul, Nat.add_zero, if_pos (Nat.zero_le _)]
      exact ih

/-- Digits behind zeros are read as the number, however they are spelled. -/
theorem read_padded_map (hb : 1 < b) {spell : Char → Char}
    (hspell : ∀ d < b, digit? b (spell (Nat.digitChar d)) = some d) (width : Nat)
    (hn : n ≤ limit) : read b limit (padded width ((digits b n).map spell)) = .ok n := by
  have hne : (padded width ((digits b n).map spell)).isEmpty = false := by
    simp [padded, digits]
  rw [read, hne, padded]
  simp only [Bool.false_eq_true, if_false]
  rw [readFrom_zeros (by omega)]
  exact readFrom_digits hb hspell hn

theorem mem_digits (hb : 1 < b) {c : Char} (h : c ∈ digits b n) : ∃ d < b, c = Nat.digitChar d := by
  induction n using Nat.strongRecOn with
  | ind n ih =>
      rw [digits_eq hb] at h
      split at h
      · rename_i hlt
        exact ⟨n, hlt, List.mem_singleton.mp h⟩
      · rename_i hge
        rcases List.mem_append.mp h with h | h
        · exact ih (n / b) (Nat.div_lt_self (by omega) hb) h
        · exact ⟨n % b, Nat.mod_lt n (by omega), List.mem_singleton.mp h⟩

/-! ### Listings -/

/-- The upper-case digit of a number below sixteen. -/
def digitUpper (d : Nat) : Char := (Nat.digitChar d).toUpper

theorem digit?_digitUpper : ∀ d < 16, digit? 16 (digitUpper d) = some d := by
  decide

theorem read_hexUpper {width : Nat} (hn : n ≤ limit) :
    read 16 limit (hexUpper width n).toList = .ok n := by
  rw [hexUpper, String.toList_ofList]
  exact read_padded_map (by decide) digit?_digitUpper width hn

theorem mem_hexUpper {width : Nat} {c : Char} (h : c ∈ (hexUpper width n).toList) :
    ∃ d < 16, c = digitUpper d := by
  rw [hexUpper, String.toList_ofList, padded, List.mem_append] at h
  rcases h with h | h
  · exact ⟨0, by decide, List.eq_of_mem_replicate h⟩
  · obtain ⟨c', hc', rfl⟩ := List.mem_map.mp h
    obtain ⟨d, hd, rfl⟩ := mem_digits (by decide) hc'
    exact ⟨d, hd, rfl⟩

theorem hexUpper_one (hn : n < 16) : (hexUpper 1 n).toList = [digitUpper n] := by
  rw [hexUpper, String.toList_ofList, digits, Nat.toDigits_of_lt_base hn]
  rfl

/-! ### Numbers of users -/

/-- What begins with no sign is read without one. -/
theorem readSigned_of_not_mem {cs : List Char} (hsign : '+' ∉ cs) :
    readSigned b limit cs = read b limit cs := by
  unfold readSigned
  split
  · simp at hsign
  · simp at hsign
  · rfl

theorem digit?_digitChar_ten : ∀ d < 10, digit? 10 (Nat.digitChar d) = some d := by
  decide

theorem digit?_digitChar_sixteen : ∀ d < 16, digit? 16 (Nat.digitChar d) = some d := by
  decide

/-- Digits behind zeros are read as the number. -/
theorem read_padded (hb : 1 < b) (hdigit : ∀ d < b, digit? b (Nat.digitChar d) = some d)
    (width : Nat) (hn : n ≤ limit) : read b limit (padded width (digits b n)) = .ok n := by
  have hread : read b limit (padded width ((digits b n).map id)) = .ok n :=
    read_padded_map hb hdigit width hn
  rwa [List.map_id] at hread

theorem mem_padded (hb : 1 < b) {width : Nat} {c : Char} (h : c ∈ padded width (digits b n)) :
    ∃ d < b, c = Nat.digitChar d := by
  rw [padded, List.mem_append] at h
  rcases h with h | h
  · exact ⟨0, by omega, List.eq_of_mem_replicate h⟩
  · exact mem_digits hb h

theorem digitChar_ne_sign : ∀ d < 16, Nat.digitChar d ≠ '+' := by
  decide

theorem digitChar_ne_letters : ∀ d < 10, Nat.digitChar d ≠ 'x' ∧ Nat.digitChar d ≠ 'X' := by
  decide

theorem readSigned_padded (hb : 1 < b) (hb16 : b ≤ 16)
    (hdigit : ∀ d < b, digit? b (Nat.digitChar d) = some d) (width : Nat) (hn : n ≤ limit) :
    readSigned b limit (padded width (digits b n)) = .ok n := by
  have hsign : '+' ∉ padded width (digits b n) := by
    intro h
    obtain ⟨d, hd, heq⟩ := mem_padded hb h
    exact digitChar_ne_sign d (by omega) heq.symm
  rw [readSigned_of_not_mem hsign]
  exact read_padded hb hdigit width hn

/-- A number in decimal notation is read as the number. -/
theorem ofUser?_decimal (hn : n ≤ wordMax) : ofUser? (decimal n).toList = some n := by
  have hread : readSigned 10 wordMax (digits 10 n) = .ok n := by
    have hpadded := readSigned_padded (by decide) (by decide) digit?_digitChar_ten 0 hn
    rwa [padded, Nat.zero_sub, List.replicate_zero, List.nil_append] at hpadded
  -- The second character is a digit too, and so no letter that announces the other notation.
  have hletters : ∀ c ∈ digits 10 n, c ≠ 'x' ∧ c ≠ 'X' := by
    intro c hc
    obtain ⟨d, hd, rfl⟩ := mem_digits (by decide) hc
    exact digitChar_ne_letters d hd
  rw [decimal, String.toList_ofList]
  unfold ofUser?
  split
  · next heq => simp [heq] at hletters
  · next heq => simp [heq] at hletters
  · rw [hread]
    rfl

/-- So is one in hexadecimal notation. -/
theorem ofUser?_hex (width : Nat) (hn : n ≤ wordMax) :
    ofUser? ('0' :: 'x' :: (hex width n).toList) = some n := by
  have hread : readSigned 16 wordMax (padded width (digits 16 n)) = .ok n :=
    readSigned_padded (by decide) (by decide) digit?_digitChar_sixteen width hn
  rw [hex, String.toList_ofList]
  show (readSigned 16 wordMax (padded width (digits 16 n))).toOption = some n
  rw [hread]
  rfl

theorem readSigned_le {cs : List Char} (h : readSigned b limit cs = .ok n) : n ≤ limit := by
  unfold readSigned at h
  split at h
  · cases h
  · exact read_le h
  · exact read_le h

/-- What is read at all is a 64-bit word. -/
theorem ofUser?_le {cs : List Char} (h : ofUser? cs = some n) : n ≤ wordMax := by
  have hread : ∀ {b cs}, (readSigned b wordMax cs).toOption = some n → n ≤ wordMax := by
    intro b cs h
    cases hsigned : readSigned b wordMax cs with
    | error e =>
        rw [hsigned] at h
        cases h
    | ok k =>
        rw [hsigned] at h
        cases h
        exact readSigned_le hsigned
  unfold ofUser? at h
  split at h
  · exact hread h
  · exact hread h
  · exact hread h

end Chip8.Numeral
