import Chip8.Proofs.Asm.Evaluation
import Mathlib.Algebra.Group.Int.Defs
import Mathlib.Algebra.Group.Nat.Defs

/-! # What operators mean

The operators of expressions over the integers, and their agreement with those over words.

* `Meaning` is what a defined expression stands for: an integer or a truth value.
* `Operator.meaning?` is the reference: every operator is an operation of integers, brought back
  into the range of 64-bit numbers by `wrap`. It has no answer for operands of the wrong number or
  kind, a divisor that is zero, and a shift by less than 0 or more than 63.
* `Operator.applyChecked` applies an operator to values like `Operator.apply`, but it answers `none`
  where no case covers the operands.
* `applyChecked_eq_some` says that this does not happen, `meaning?_apply` that the word that comes
  out has the meaning that the reference gives. -/

namespace Chip8.Asm

/-- What an expression stands for. -/
inductive Meaning where
  | number (z : Int)
  | truth (b : Bool)
deriving DecidableEq, Repr

/-- The number in the range of 64-bit numbers in two's complement with the same lowest 64 bits. -/
def wrap (z : Int) : Int := Int.bmod z (2 ^ 64)

/-- The lowest 64 bits of a number in two's complement. -/
def pattern (z : Int) : Nat := (z % (2 ^ 64 : Nat)).toNat

/-- What an operator makes of the meanings of its operands. -/
def Operator.meaning? : Operator → List Meaning → Option Meaning
  | neg, [.number a] => some (.number (wrap (-a)))
  | complement, [.number a] => some (.number (wrap (-a - 1)))
  | not, [.truth a] => some (.truth !a)
  | logicalOr, [.truth a, .truth b] => some (.truth (a || b))
  | logicalAnd, [.truth a, .truth b] => some (.truth (a && b))
  | eq, [.number a, .number b] => some (.truth (a = b))
  | eq, [.truth a, .truth b] => some (.truth (a = b))
  | ne, [.number a, .number b] => some (.truth (a ≠ b))
  | ne, [.truth a, .truth b] => some (.truth (a ≠ b))
  | lt, [.number a, .number b] => some (.truth (a < b))
  | le, [.number a, .number b] => some (.truth (a ≤ b))
  | gt, [.number a, .number b] => some (.truth (b < a))
  | ge, [.number a, .number b] => some (.truth (b ≤ a))
  | bitOr, [.number a, .number b] => some (.number (wrap (pattern a ||| pattern b : Nat)))
  | bitXor, [.number a, .number b] => some (.number (wrap (pattern a ^^^ pattern b : Nat)))
  | bitAnd, [.number a, .number b] => some (.number (wrap (pattern a &&& pattern b : Nat)))
  | shl, [.number a, .number b] =>
      if 0 ≤ b ∧ b < 64 then some (.number (wrap (a * 2 ^ b.toNat))) else none
  | shr, [.number a, .number b] =>
      if 0 ≤ b ∧ b < 64 then some (.number (a / 2 ^ b.toNat)) else none
  | add, [.number a, .number b] => some (.number (wrap (a + b)))
  | sub, [.number a, .number b] => some (.number (wrap (a - b)))
  | mul, [.number a, .number b] => some (.number (wrap (a * b)))
  | div, [.number a, .number b] => if b = 0 then none else some (.number (wrap (a.tdiv b)))
  | rem, [.number a, .number b] => if b = 0 then none else some (.number (a.tmod b))
  | _, _ => none

/-- What a value stands for. -/
def Value.meaning? : Value → Option Meaning
  | number n => some (.number n.toInt)
  | boolean b => some (.truth b)
  | undefined => none

/-- What a result stands for. -/
def resultMeaning? : Except EvalError Value → Option Meaning
  | .ok v => v.meaning?
  | .error _ => none

/-! ### Words as integers -/

section words

variable (a b : Int64)

theorem toInt_eq_bmod : a.toInt = Int.bmod a.toBitVec.toNat (2 ^ 64) :=
  BitVec.toInt_eq_toNat_bmod _

theorem pattern_toInt : pattern a.toInt = a.toBitVec.toNat := by
  have hlt : a.toBitVec.toNat < 2 ^ 64 := a.toBitVec.isLt
  unfold pattern
  rw [toInt_eq_bmod, Int.bmod_emod]
  omega

theorem toInt_or : (a ||| b).toInt = wrap (pattern a.toInt ||| pattern b.toInt : Nat) := by
  rw [toInt_eq_bmod, pattern_toInt, pattern_toInt, Int64.toBitVec_or, BitVec.toNat_or]
  rfl

theorem toInt_xor : (a ^^^ b).toInt = wrap (pattern a.toInt ^^^ pattern b.toInt : Nat) := by
  rw [toInt_eq_bmod, pattern_toInt, pattern_toInt, Int64.toBitVec_xor, BitVec.toNat_xor]
  rfl

theorem toInt_and : (a &&& b).toInt = wrap (pattern a.toInt &&& pattern b.toInt : Nat) := by
  rw [toInt_eq_bmod, pattern_toInt, pattern_toInt, Int64.toBitVec_and, BitVec.toNat_and]
  rfl

variable {b}

/-- A shift in range is by the amount itself. -/
theorem smod_of_shift (h : 0 ≤ b.toInt ∧ b.toInt < 64) :
    (b.toBitVec.smod 64).toNat = b.toInt.toNat := by
  have hsmod : (b.toBitVec.smod 64).toInt = b.toInt := by
    rw [BitVec.toInt_smod, Int64.toInt_toBitVec]
    exact Int.fmod_eq_of_lt h.1 h.2
  have hlt := (b.toBitVec.smod 64).isLt
  rw [BitVec.toInt_eq_toNat_bmod, Int.bmod_def] at hsmod
  split at hsmod <;> omega

theorem toInt_shl (h : 0 ≤ b.toInt ∧ b.toInt < 64) :
    (a <<< b).toInt = wrap (a.toInt * 2 ^ b.toInt.toNat) := by
  rw [← Int64.toInt_toBitVec, Int64.toBitVec_shiftLeft, BitVec.shiftLeft_eq', smod_of_shift h,
    BitVec.toInt_shiftLeft, Nat.shiftLeft_eq, toInt_eq_bmod a, wrap, Int.bmod_mul_bmod]
  push_cast
  rfl

theorem toInt_shr (h : 0 ≤ b.toInt ∧ b.toInt < 64) :
    (a >>> b).toInt = a.toInt / 2 ^ b.toInt.toNat := by
  rw [← Int64.toInt_toBitVec, Int64.toBitVec_shiftRight, BitVec.toInt_sshiftRight',
    smod_of_shift h, Int.shiftRight_eq_div_pow, Int64.toInt_toBitVec]
  push_cast
  rfl

theorem eq_zero_iff : b = 0 ↔ b.toInt = 0 := by
  rw [← Int64.toInt_inj]
  rfl

theorem inShift_iff : (0 ≤ b ∧ b < 64) ↔ (0 ≤ b.toInt ∧ b.toInt < 64) := by
  rw [Int64.le_iff_toInt_le, Int64.lt_iff_toInt_lt]
  rfl

end words

/-! ### Defined values -/

theorem defined_of_meanings {vs : List Value} {ms : List Meaning}
    (h : List.Forall₂ (fun v m => v.meaning? = some m) vs ms) : .undefined ∉ vs := by
  induction h with
  | nil => simp
  | @cons v m vs ms hv _ ih =>
      rw [List.mem_cons, not_or]
      refine ⟨fun e => ?_, ih⟩
      subst e
      cases hv

theorem exists_meanings {vs : List Value} (h : .undefined ∉ vs) :
    ∃ ms, List.Forall₂ (fun v m => v.meaning? = some m) vs ms := by
  induction vs with
  | nil => exact ⟨[], .nil⟩
  | cons v vs ih =>
      rw [List.mem_cons, not_or] at h
      obtain ⟨ms, hms⟩ := ih h.2
      cases v with
      | number n => exact ⟨_ :: ms, .cons rfl hms⟩
      | boolean b => exact ⟨_ :: ms, .cons rfl hms⟩
      | undefined => exact absurd rfl h.1

/-! ### Operators -/

namespace Operator

variable (op : Operator) (span : Span)

theorem arity_cases : op.arity = 1 ∨ op.arity = 2 := by
  cases op <;> decide

theorem meaning?_onNumber (a : Int64) :
    op.meaning? [.number a.toInt] = (op.onNumber? a).bind Value.meaning? := by
  cases op with
  | neg => simp [meaning?, onNumber?, Value.meaning?, wrap, Int64.toInt_neg]
  | complement => simp [meaning?, onNumber?, Value.meaning?, wrap, Int64.toInt_not]
  | _ => rfl

theorem meaning?_onBooleans (a b : Bool) :
    op.meaning? [.truth a, .truth b] = (op.onBooleans? a b).bind Value.meaning? := by
  cases op <;> rfl

theorem meaning?_onNumbers (a b : Int64) :
    op.meaning? [.number a.toInt, .number b.toInt] =
      (op.onNumbers? a b span).bind resultMeaning? := by
  cases op with
  | eq | ne => simp [meaning?, onNumbers?, resultMeaning?, Value.meaning?, Int64.toInt_inj]
  | lt | gt =>
      simp [meaning?, onNumbers?, resultMeaning?, Value.meaning?, Int64.lt_iff_toInt_lt]
  | le | ge =>
      simp [meaning?, onNumbers?, resultMeaning?, Value.meaning?, Int64.le_iff_toInt_le]
  | bitOr => simp [meaning?, onNumbers?, resultMeaning?, Value.meaning?, toInt_or]
  | bitXor => simp [meaning?, onNumbers?, resultMeaning?, Value.meaning?, toInt_xor]
  | bitAnd => simp [meaning?, onNumbers?, resultMeaning?, Value.meaning?, toInt_and]
  | add => simp [meaning?, onNumbers?, resultMeaning?, Value.meaning?, wrap, Int64.toInt_add]
  | sub => simp [meaning?, onNumbers?, resultMeaning?, Value.meaning?, wrap, Int64.toInt_sub]
  | mul => simp [meaning?, onNumbers?, resultMeaning?, Value.meaning?, wrap, Int64.toInt_mul]
  | shl =>
      by_cases h : 0 ≤ b.toInt ∧ b.toInt < 64
      · simp [meaning?, onNumbers?, resultMeaning?, Value.meaning?, inShift_iff, h, toInt_shl a h]
      · simp [meaning?, onNumbers?, resultMeaning?, inShift_iff, h]
  | shr =>
      by_cases h : 0 ≤ b.toInt ∧ b.toInt < 64
      · simp [meaning?, onNumbers?, resultMeaning?, Value.meaning?, inShift_iff, h, toInt_shr a h]
      · simp [meaning?, onNumbers?, resultMeaning?, inShift_iff, h]
  | div =>
      by_cases h : b.toInt = 0
      · simp [meaning?, onNumbers?, resultMeaning?, eq_zero_iff, h]
      · simp [meaning?, onNumbers?, resultMeaning?, Value.meaning?, eq_zero_iff, h, wrap,
          Int64.toInt_div]
  | rem =>
      by_cases h : b.toInt = 0
      · simp [meaning?, onNumbers?, resultMeaning?, eq_zero_iff, h]
      · simp [meaning?, onNumbers?, resultMeaning?, Value.meaning?, eq_zero_iff, h,
          Int64.toInt_mod]
  | _ => rfl

theorem meaning?_one {v : Value} {m : Meaning} (h : v.meaning? = some m) :
    op.meaning? [m] = (op.applied? span [v]).bind resultMeaning? := by
  cases v with
  | number a =>
      cases h
      rw [meaning?_onNumber]
      cases op <;> rfl
  | boolean a =>
      cases h
      cases op <;> rfl
  | undefined => cases h

theorem meaning?_two {v w : Value} {m k : Meaning} (hv : v.meaning? = some m)
    (hw : w.meaning? = some k) :
    op.meaning? [m, k] = (op.applied? span [v, w]).bind resultMeaning? := by
  cases v with
  | undefined => cases hv
  | number a =>
      cases hv
      cases w with
      | undefined => cases hw
      | boolean b =>
          cases hw
          cases op <;> rfl
      | number b =>
          cases hw
          exact op.meaning?_onNumbers span a b
  | boolean a =>
      cases hv
      cases w with
      | undefined => cases hw
      | number b =>
          cases hw
          cases op <;> rfl
      | boolean b =>
          cases hw
          rw [meaning?_onBooleans]
          cases op <;> rfl

/-- **Words have the meaning of the reference**: what an operator makes of defined values. -/
theorem meaning?_applied {vs : List Value} {ms : List Meaning}
    (h : List.Forall₂ (fun v m => v.meaning? = some m) vs ms) (hlength : vs.length = op.arity) :
    op.meaning? ms = (op.applied? span vs).bind resultMeaning? := by
  rcases op.arity_cases with h1 | h2
  · obtain ⟨v, rfl⟩ := List.length_eq_one_iff.mp (hlength.trans h1)
    obtain ⟨m, ms, hv, hnil, rfl⟩ := List.forall₂_cons_left_iff.mp h
    rw [List.forall₂_nil_left_iff] at hnil
    rw [hnil]
    exact op.meaning?_one span hv
  · obtain ⟨v, w, rfl⟩ := List.length_eq_two.mp (hlength.trans h2)
    obtain ⟨m, ms, hv, htail, rfl⟩ := List.forall₂_cons_left_iff.mp h
    obtain ⟨k, ms, hw, hnil, rfl⟩ := List.forall₂_cons_left_iff.mp htail
    rw [List.forall₂_nil_left_iff] at hnil
    rw [hnil]
    exact op.meaning?_two span hv hw

/-- Apply an operator to values, unless no case covers them. -/
def applyChecked (values : List Value) : Option (Except EvalError Value) :=
  if op.accepts (values.filterMap Value.family?) then
    if values.contains .undefined then some (.ok .undefined) else op.applied? span values
  else some (.error (.mismatch op span))

theorem exists_onNumber (a : Int64) (harity : op.arity = 1)
    (haccepts : op.accepts [.number] = true) : ∃ v, op.onNumber? a = some v ∧ v ≠ .undefined := by
  cases op <;>
    first | (cases harity; done) | (cases haccepts; done) | exact ⟨_, rfl, by simp⟩

theorem eq_not_of_accepts (harity : op.arity = 1) (haccepts : op.accepts [.boolean] = true) :
    op = not := by
  cases op <;> first | (cases harity; done) | (cases haccepts; done) | rfl

theorem exists_onNumbers (a b : Int64) (harity : op.arity = 2)
    (haccepts : op.accepts [.number, .number] = true) :
    ∃ r, op.onNumbers? a b span = some r ∧ r ≠ .ok .undefined := by
  cases op <;> first | (cases harity; done) | (cases haccepts; done) | refine ⟨_, rfl, ?_⟩
  case shl | shr | div | rem =>
    dsimp only
    split <;> simp
  all_goals simp

theorem exists_onBooleans (a b : Bool) (harity : op.arity = 2)
    (haccepts : op.accepts [.boolean, .boolean] = true) :
    ∃ v, op.onBooleans? a b = some v ∧ v ≠ .undefined := by
  cases op <;>
    first | (cases harity; done) | (cases haccepts; done) | exact ⟨_, rfl, by simp⟩

/-- No operator takes a number and a truth value. -/
theorem rejects_mixed (harity : op.arity = 2) :
    op.accepts [.number, .boolean] = false ∧ op.accepts [.boolean, .number] = false := by
  cases op <;> first | (cases harity; done) | decide

/-- **The cases are complete**: defined values of the right number and kind are covered, and what
comes out is defined. -/
theorem exists_applied {vs : List Value} (hlength : vs.length = op.arity)
    (haccepts : op.accepts (vs.filterMap Value.family?) = true) (hdefined : .undefined ∉ vs) :
    ∃ r, op.applied? span vs = some r ∧ r ≠ .ok .undefined := by
  rcases op.arity_cases with h1 | h2
  · obtain ⟨v, rfl⟩ := List.length_eq_one_iff.mp (hlength.trans h1)
    cases v with
    | undefined => simp at hdefined
    | number a =>
        obtain ⟨v, hv, hne⟩ := op.exists_onNumber a h1 haccepts
        exact ⟨.ok v, by simp [applied?, hv], by simpa using hne⟩
    | boolean a =>
        obtain rfl := op.eq_not_of_accepts h1 haccepts
        exact ⟨_, rfl, by simp⟩
  · obtain ⟨v, w, rfl⟩ := List.length_eq_two.mp (hlength.trans h2)
    obtain ⟨hmixed, hmixed'⟩ := op.rejects_mixed h2
    cases v with
    | undefined => simp at hdefined
    | number a =>
        cases w with
        | undefined => simp at hdefined
        | number b => exact op.exists_onNumbers span a b h2 haccepts
        | boolean b => exact absurd haccepts (Bool.eq_false_iff.mp hmixed)
    | boolean a =>
        cases w with
        | undefined => simp at hdefined
        | number b => exact absurd haccepts (Bool.eq_false_iff.mp hmixed')
        | boolean b =>
            obtain ⟨v, hv, hne⟩ := op.exists_onBooleans a b h2 haccepts
            exact ⟨.ok v, by simp [applied?, hv], by simpa using hne⟩

/-- Operands that an operator has a case for are of the kinds that it takes. -/
theorem accepts_of_applied {vs : List Value} {r : Except EvalError Value}
    (h : op.applied? span vs = some r) : op.accepts (vs.filterMap Value.family?) = true := by
  unfold applied? at h
  split at h
  · cases op <;> first | (cases h; done) | rfl
  · cases op <;> first | (cases h; done) | rfl
  · cases op <;> first | (cases h; done) | rfl
  · cases op <;> first | (cases h; done) | rfl
  · cases h

/-- The meaning of operands has one entry for each operand that the operator takes. -/
theorem length_of_meaning? {ms : List Meaning} {m : Meaning} (h : op.meaning? ms = some m) :
    ms.length = op.arity := by
  unfold meaning? at h
  split at h <;> first | rfl | cases h

/-! ### Operators and their operands -/

theorem applyChecked_eq_some {vs : List Value} (hlength : vs.length = op.arity) :
    op.applyChecked span vs = some (op.apply span vs) := by
  unfold applyChecked apply
  split
  · rename_i haccepts
    by_cases hundef : .undefined ∈ vs
    · simp [hundef]
    · obtain ⟨r, hr, -⟩ := op.exists_applied span hlength haccepts hundef
      simp [hundef, hr]
  · rfl

/-- The result is undefined just as long as an operand is. -/
theorem undefined_of_apply {vs : List Value} {v : Value} (hlength : vs.length = op.arity)
    (h : op.apply span vs = .ok v) : v = .undefined ↔ .undefined ∈ vs := by
  unfold apply at h
  split at h
  · rename_i haccepts
    by_cases hundef : .undefined ∈ vs
    · simp only [List.contains_eq_mem, hundef, decide_true, if_true] at h
      cases h
      simp [hundef]
    · obtain ⟨r, hr, hne⟩ := op.exists_applied span hlength haccepts hundef
      simp only [List.contains_eq_mem, hundef, decide_false, Bool.false_eq_true, if_false, hr,
        Option.getD_some] at h
      subst h
      simpa [hundef] using hne
  · cases h

/-- **An operator has the meaning of the reference** on defined operands. -/
theorem meaning?_apply {vs : List Value} {ms : List Meaning}
    (h : List.Forall₂ (fun v m => v.meaning? = some m) vs ms) (hlength : vs.length = op.arity) :
    op.meaning? ms = resultMeaning? (op.apply span vs) := by
  have hundef := defined_of_meanings h
  rw [op.meaning?_applied span h hlength]
  unfold apply
  split
  · rename_i haccepts
    obtain ⟨r, hr, -⟩ := op.exists_applied span hlength haccepts hundef
    simp [hundef, hr]
  · rename_i hrejects
    cases hr : op.applied? span vs with
    | none => rfl
    | some r => exact absurd (op.accepts_of_applied span hr) hrejects

/-! ### Errors -/

theorem error_of_onNumbers {a b : Int64} {e : EvalError}
    (h : op.onNumbers? a b span = some (.error e)) :
    e = .shiftRange b span ∨ e = .divisionByZero span := by
  cases op <;> first | cases h | simp only [onNumbers?, Option.some.injEq] at h
  case shl | shr =>
    split at h
    · cases h
    · cases h
      exact .inl rfl
  case div | rem =>
    split at h
    · cases h
      exact .inr rfl
    · cases h

theorem error_of_applied {e : EvalError} : ∀ {vs : List Value},
    op.applied? span vs = some (.error e) →
      (∃ b, e = .shiftRange b span) ∨ e = .divisionByZero span
  | [.number a], h => by
      rw [applied?] at h
      cases hr : op.onNumber? a <;> rw [hr] at h <;> cases h
  | [.boolean a], h => by
      rw [applied?] at h
      split at h <;> cases h
  | [.number a, .number b], h =>
      (op.error_of_onNumbers span h).imp_left fun hshift => ⟨b, hshift⟩
  | [.boolean a, .boolean b], h => by
      rw [applied?] at h
      cases hr : op.onBooleans? a b <;> rw [hr] at h <;> cases h

/-- What an operator can find wrong with its operands. -/
theorem error_of_apply {vs : List Value} {e : EvalError} (h : op.apply span vs = .error e) :
    e = .mismatch op span ∨ (∃ b, e = .shiftRange b span) ∨ e = .divisionByZero span := by
  unfold apply at h
  split at h
  · split at h
    · cases h
    · cases hr : op.applied? span vs with
      | none => rw [hr] at h; cases h
      | some r =>
          rw [hr] at h
          subst h
          exact .inr (op.error_of_applied span hr)
  · cases h
    exact .inl rfl

end Operator

end Chip8.Asm
