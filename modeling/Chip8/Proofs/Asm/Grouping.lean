import Chip8.Asm.Operator

/-! # Grouping by strength

Operands with binary operators between them, and the trees that group them.

* `Grouping` is such a tree, and `Grouping.inorder` what it groups, from left to right.
* In an `Ordered` one the operator of a left operand binds at least as tightly as the operator that
  takes it, and the one of a right operand more tightly. So its root is the last one of the weakest
  operators (`strength_of_mem`).
* `eq_of_inorder_eq`: at most one ordered tree groups the same operands and operators. -/

namespace Chip8.Asm

/-- How tightly a binary operator binds. -/
def Operator.strength (op : Operator) : Nat := op.precedence.getD 0

theorem Operator.precedence_eq {op : Operator} (hop : op.arity = 2) :
    op.precedence = some op.strength := by
  cases op <;> first | rfl | cases hop

theorem Operator.one_le_strength {op : Operator} (hop : op.arity = 2) : 1 ≤ op.strength := by
  cases op <;> first | decide | cases hop

/-- Operands that are grouped by the binary operators between them. -/
inductive Grouping (α : Type) where
  | operand (a : α)
  | binary (op : Operator) (left right : Grouping α)

namespace Grouping

variable {α : Type}

/-- What is grouped, from left to right. -/
def inorder : Grouping α → List (α ⊕ Operator)
  | operand a => [.inl a]
  | binary op left right => left.inorder ++ .inr op :: right.inorder

/-- The operator that is applied last. -/
def root? : Grouping α → Option Operator
  | operand _ => none
  | binary op _ _ => some op

/-- Tighter operators are applied first, and of equally tight ones the left one. -/
inductive Ordered : Grouping α → Prop
  | operand (a : α) : Ordered (.operand a)
  | binary {op : Operator} {left right : Grouping α}
      (atLeast : ∀ o ∈ left.root?, op.strength ≤ o.strength)
      (more : ∀ o ∈ right.root?, op.strength < o.strength)
      (ordered : Ordered left) (ordered' : Ordered right) : Ordered (.binary op left right)

/-- No operator of an ordered tree is weaker than its root. -/
theorem strength_of_mem {g : Grouping α} (h : g.Ordered) {o r : Operator} (ho : .inr o ∈ g.inorder)
    (hr : r ∈ g.root?) : r.strength ≤ o.strength := by
  induction h generalizing r with
  | operand a => cases hr
  | @binary op left right hleft hright _ _ ihl ihr =>
      cases hr
      rw [inorder, List.mem_append, List.mem_cons] at ho
      rcases ho with ho | ho | ho
      · cases left with
        | operand a => simp [inorder] at ho
        | binary p l l' => exact Nat.le_trans (hleft p rfl) (ihl ho rfl)
      · cases ho
        exact Nat.le_refl _
      · cases right with
        | operand a => simp [inorder] at ho
        | binary p l l' => exact Nat.le_trans (Nat.le_of_lt (hright p rfl)) (ihr ho rfl)

/-- Behind the root every operator is stronger. -/
theorem strength_of_mem_right {op o : Operator} {left right : Grouping α}
    (h : (binary op left right).Ordered) (ho : .inr o ∈ right.inorder) :
    op.strength < o.strength := by
  cases h with
  | binary _ hmore _ hright =>
      cases right with
      | operand a => simp [inorder] at ho
      | binary p l l' => exact Nat.lt_of_lt_of_le (hmore p rfl) (strength_of_mem hright ho rfl)

theorem strength_of_mem_left {op o : Operator} {left right : Grouping α}
    (h : (binary op left right).Ordered) (ho : .inr o ∈ left.inorder) :
    op.strength ≤ o.strength :=
  strength_of_mem h (List.mem_append_left _ ho) rfl

theorem inorder_binary_ne (op : Operator) (left right : Grouping α) (a : α) :
    (binary op left right).inorder ≠ [.inl a] := by
  intro h
  have hmem : .inr op ∈ (binary op left right).inorder := by simp [inorder]
  rw [h, List.mem_singleton] at hmem
  cases hmem

/-- A root that stands in front of another one cannot have the same operators around it. -/
theorem root_not_before {op op' : Operator} {left right left' right' : Grouping α}
    (h : (binary op left right).Ordered) (h' : (binary op' left' right').Ordered)
    {ws : List (α ⊕ Operator)} (hleft : left'.inorder = left.inorder ++ .inr op :: ws)
    (hright : right.inorder = ws ++ .inr op' :: right'.inorder) : False := by
  have hle : op'.strength ≤ op.strength := strength_of_mem_left h' (by simp [hleft])
  have hlt : op.strength < op'.strength := strength_of_mem_right h (by simp [hright])
  omega

/-- The roots of two ordered trees of the same operands and operators are at one place. -/
theorem root_unique {op op' : Operator} {left right left' right' : Grouping α}
    (h : (binary op left right).Ordered) (h' : (binary op' left' right').Ordered)
    (heq : (binary op left right).inorder = (binary op' left' right').inorder) :
    left.inorder = left'.inorder ∧ op = op' ∧ right.inorder = right'.inorder := by
  rw [inorder, inorder, List.append_eq_append_iff] at heq
  rcases heq with ⟨ws, hleft, hright⟩ | ⟨ws, hleft, hright⟩
  · cases ws with
    | nil =>
        injection hright with hop htail
        rw [List.append_nil] at hleft
        exact ⟨hleft.symm, Sum.inr.inj hop, htail⟩
    | cons w ws =>
        injection hright with hop htail
        subst hop
        exact (root_not_before h h' hleft htail).elim
  · cases ws with
    | nil =>
        injection hright with hop htail
        rw [List.append_nil] at hleft
        exact ⟨hleft, (Sum.inr.inj hop).symm, htail.symm⟩
    | cons w ws =>
        injection hright with hop htail
        subst hop
        exact (root_not_before h' h hleft htail).elim

/-- **The order determines the grouping.** The induction is on the first tree. -/
theorem eq_of_inorder_eq {g g' : Grouping α} (h : g.Ordered) (h' : g'.Ordered)
    (heq : g.inorder = g'.inorder) : g = g' := by
  induction h generalizing g' with
  | operand a =>
      cases g' with
      | operand b =>
          cases heq
          rfl
      | binary op left right => exact absurd heq.symm (inorder_binary_ne op left right a)
  | @binary op left right hatLeast hmore hl hr ihl ihr =>
      cases g' with
      | operand b => exact absurd heq (inorder_binary_ne op left right b)
      | binary op' left' right' =>
          obtain ⟨hleft, rfl, hright⟩ := root_unique (.binary hatLeast hmore hl hr) h' heq
          cases h' with
          | binary _ _ hl' hr' => rw [ihl hl' hleft, ihr hr' hright]

end Grouping

end Chip8.Asm
