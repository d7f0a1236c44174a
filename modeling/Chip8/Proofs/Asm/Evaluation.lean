import Chip8.Asm.Value
import Chip8.Proofs.Asm.SymbolTable
import Mathlib.Data.List.Forall2

/-! # Evaluation under a growing table

What becomes of the value of a tree when more names get their values.

* `Refines r r'` says that a result `r` may become `r'`: a number and a boolean stay, an error stays
  an error, and only what was undefined may become anything.
* `evaluate_refines` proves it for every tree and two tables of which one extends the other. What
  carries the induction over the operands of a tree is `RefinesAll`.
* `numberIn_mono` and `numberIn_of_tryNumberIn` are what the two passes of the assembler use. -/

namespace Chip8.Asm

/-- What a result may become when more names have values. -/
inductive Refines : Except EvalError Value → Except EvalError Value → Prop where
  | undefined (r : Except EvalError Value) : Refines (.ok .undefined) r
  | error (e e' : EvalError) : Refines (.error e) (.error e')
  | same (v : Value) : Refines (.ok v) (.ok v)

/-- What a value may become. -/
def Value.Grows (v v' : Value) : Prop := v = .undefined ∨ v = v'

/-- What the values of the operands of a tree may become. -/
inductive RefinesAll :
    Except EvalError (List Value) → Except EvalError (List Value) → Prop where
  | error (e e' : EvalError) : RefinesAll (.error e) (.error e')
  | undefined {vs : List Value} (h : .undefined ∈ vs) (e : EvalError) :
      RefinesAll (.ok vs) (.error e)
  | values {vs vs' : List Value} (h : List.Forall₂ Value.Grows vs vs') :
      RefinesAll (.ok vs) (.ok vs')

namespace Refines

variable {r r' : Except EvalError Value}

theorem of_ok {v : Value} (h : Refines (.ok v) r') (hv : v ≠ .undefined) : r' = .ok v := by
  cases h with
  | undefined => exact absurd rfl hv
  | same => rfl

end Refines

/-! ### Operators on growing operands -/

/-- The kinds of the defined values are among those of the values that they grow to. -/
theorem families_sublist {vs vs' : List Value} (h : List.Forall₂ Value.Grows vs vs') :
    (vs.filterMap Value.family?).Sublist (vs'.filterMap Value.family?) := by
  induction h with
  | nil => exact List.Sublist.refl _
  | @cons v v' vs vs' hv _ ih =>
      rcases hv with rfl | rfl
      · rw [List.filterMap_cons_none rfl]
        cases hfamily : v'.family? with
        | none => rwa [List.filterMap_cons_none hfamily]
        | some f =>
            rw [List.filterMap_cons_some hfamily]
            exact ih.cons f
      · cases hfamily : v.family? with
        | none => rwa [List.filterMap_cons_none hfamily, List.filterMap_cons_none hfamily]
        | some f =>
            rw [List.filterMap_cons_some hfamily, List.filterMap_cons_some hfamily]
            exact ih.cons_cons f

/-- All of one kind stay so in a part of a list. -/
theorem accepts_either_iff {op : Operator} (hop : op.family = .either) (fs : List Family) :
    op.accepts fs = true ↔ ∀ f ∈ fs, ∀ g ∈ fs, f = g := by
  unfold Operator.accepts
  rw [hop]
  cases fs with
  | nil => simp
  | cons a rest =>
      simp only [List.all_eq_true, decide_eq_true_eq]
      constructor
      · intro h f hf g hg
        have key : ∀ x ∈ a :: rest, x = a := by
          intro x hx
          rcases List.mem_cons.mp hx with rfl | hx
          · rfl
          · exact h x hx
        rw [key f hf, key g hg]
      · intro h x hx
        exact h x (List.mem_cons_of_mem a hx) a List.mem_cons_self

/-- An operator takes every part of the operands that it takes. -/
theorem Operator.accepts_of_sublist {op : Operator} {fs fs' : List Family} (hsub : fs.Sublist fs')
    (h : op.accepts fs' = true) : op.accepts fs = true := by
  by_cases hop : op.family = .either
  · rw [accepts_either_iff hop] at h ⊢
    exact fun f hf g hg => h f (hsub.subset hf) g (hsub.subset hg)
  · have hall : ∀ l, op.accepts l = l.all (· = op.family) := by
      intro l
      cases op <;> first | rfl | exact absurd rfl hop
    rw [hall, List.all_eq_true] at h ⊢
    exact fun f hf => h f (hsub.subset hf)

/-- An undefined operand leaves the result undefined, unless the others are of the wrong kinds. -/
theorem Operator.apply_of_undefined (op : Operator) (span : Span) {vs : List Value}
    (h : .undefined ∈ vs) :
    op.apply span vs = if op.accepts (vs.filterMap Value.family?) then .ok .undefined
      else .error (.mismatch op span) := by
  simp [apply, h]

theorem Operator.apply_refines (op : Operator) (span : Span) {vs vs' : List Value}
    (h : List.Forall₂ Value.Grows vs vs') : Refines (op.apply span vs) (op.apply span vs') := by
  by_cases hundef : .undefined ∈ vs
  · rw [apply_of_undefined op span hundef]
    split
    · exact .undefined _
    · rename_i hreject
      have hreject' : op.accepts (vs'.filterMap Value.family?) ≠ true := fun haccept =>
        hreject (accepts_of_sublist (families_sublist h) haccept)
      rw [apply, if_neg hreject']
      exact .error _ _
  · have hsame : vs = vs' := by
      induction h with
      | nil => rfl
      | @cons v v' vs vs' hv _ ih =>
          rw [List.mem_cons, not_or] at hundef
          rcases hv with rfl | rfl
          · exact absurd rfl hundef.1
          · rw [ih hundef.2]
    rw [hsame]
    cases op.apply span vs' with
    | error e => exact .error e e
    | ok v => exact .same v

theorem Operator.apply_refines_error (op : Operator) (span : Span) {vs : List Value}
    (h : .undefined ∈ vs) (e : EvalError) : Refines (op.apply span vs) (.error e) := by
  rw [apply_of_undefined op span h]
  split
  · exact .undefined _
  · exact .error _ _

/-! ### Trees -/

namespace Node

variable {t t' : SymbolTable}

mutual

/-- **Evaluation is monotone**: knowing more values turns undefined results into others and changes
no result that is defined. -/
theorem evaluate_refines (h : t.Extends t') : ∀ n : Node, Refines (n.evaluate t) (n.evaluate t')
  | number v _ => .same (.number v)
  | register _ s => .error _ _
  | keyword _ s => .error _ _
  | name i s => by
      rw [evaluate, evaluate]
      cases hi : t.lookup i with
      | unknown =>
          rw [(h.unknown_iff i).mpr hi]
          exact .error _ _
      | undefined => exact .undefined _
      | value n =>
          rw [h.value i n hi]
          exact .same _
  | apply op operands s => by
      rw [evaluate, evaluate]
      split
      · have hall := evaluateAll_refines h operands
        revert hall
        generalize evaluateAll t operands = r
        generalize evaluateAll t' operands = r'
        intro hall
        cases hall with
        | error e e' => exact .error _ _
        | undefined hundef e => exact op.apply_refines_error s hundef e
        | values hvalues => exact op.apply_refines s hvalues
      · exact .error _ _

theorem evaluateAll_refines (h : t.Extends t') :
    ∀ ns : List Node, RefinesAll (evaluateAll t ns) (evaluateAll t' ns)
  | [] => .values .nil
  | n :: ns => by
      rw [evaluateAll, evaluateAll]
      have hhead := evaluate_refines h n
      have htail := evaluateAll_refines h ns
      revert hhead htail
      generalize n.evaluate t = r
      generalize n.evaluate t' = r'
      generalize evaluateAll t ns = rs
      generalize evaluateAll t' ns = rs'
      intro hhead htail
      cases hhead with
      | error e e' => exact .error _ _
      | same v =>
          cases htail with
          | error e e' => exact .error _ _
          | undefined hundef e => exact .undefined (List.mem_cons_of_mem v hundef) e
          | values hvalues => exact .values (.cons (.inr rfl) hvalues)
      | undefined r' =>
          cases htail with
          | error e e' =>
              cases r' with
              | error e₁ => exact .error _ _
              | ok v' => exact .error _ _
          | undefined hundef e =>
              cases r' with
              | error e₁ => exact .undefined List.mem_cons_self e₁
              | ok v' => exact .undefined List.mem_cons_self e
          | values hvalues =>
              cases r' with
              | error e₁ => exact .undefined List.mem_cons_self e₁
              | ok v' => exact .values (.cons (.inl rfl) hvalues)

end

/-- A number that a tree stands for is kept. -/
theorem numberIn_mono (h : t.Extends t') {n : Node} {v : Int64} (hv : n.numberIn t = .ok v) :
    n.numberIn t' = .ok v := by
  unfold numberIn at hv ⊢
  cases hr : n.evaluate t with
  | error e => rw [hr] at hv; cases hv
  | ok value =>
      rw [hr] at hv
      cases value with
      | boolean b => cases hv
      | undefined => cases hv
      | number m =>
          have hkeep := evaluate_refines h n
          rw [hr] at hkeep
          rw [hkeep.of_ok (by simp)]
          exact hv

/-- Once a tree has a number without asking for all names, that is its number. -/
theorem numberIn_of_tryNumberIn {n : Node} {v : Int64} (hv : n.tryNumberIn t = .ok (some v)) :
    n.numberIn t = .ok v := by
  unfold tryNumberIn at hv
  unfold numberIn
  cases hr : n.evaluate t with
  | error e => rw [hr] at hv; cases hv
  | ok value =>
      rw [hr] at hv
      cases value with
      | number m =>
          cases hv
          rfl
      | boolean b => cases hv
      | undefined => cases hv

mutual

theorem evaluate_congr (h : ∀ i, t'.lookup i = t.lookup i) :
    ∀ n : Node, n.evaluate t' = n.evaluate t
  | number _ _ | register _ _ | keyword _ _ => rfl
  | name i s => by rw [evaluate, evaluate, h i]
  | apply op operands s => by rw [evaluate, evaluate, evaluateAll_congr h operands]

theorem evaluateAll_congr (h : ∀ i, t'.lookup i = t.lookup i) :
    ∀ ns : List Node, evaluateAll t' ns = evaluateAll t ns
  | [] => rfl
  | n :: ns => by rw [evaluateAll, evaluateAll, evaluate_congr h n, evaluateAll_congr h ns]

end

/-- Tables that know the same give the same numbers and the same errors. -/
theorem numberIn_congr (h : ∀ i, t'.lookup i = t.lookup i) (n : Node) :
    n.numberIn t' = n.numberIn t := by
  simp only [numberIn, firstUndefined, evaluate_congr h n, h]

end Node

end Chip8.Asm
