import Chip8.Asm.Form
import Mathlib.Data.List.Nodup

/-! # One form for each instruction

No two forms of the table compete for the same instruction.

* The sort of an operand is all that the signatures of forms with one mnemonic differ in
  (`sort_of_accepts`).
* `nodup_keys`: a form is determined by its mnemonic and the sorts of its operands.
* `eq_of_mem_matching`: the forms that take an instruction are the same one. -/

namespace Chip8.Asm

/-- What two shapes have to differ in so that no operand has both. -/
inductive OperandSort where
  | register
  | word (k : Keyword)
  | expression
deriving DecidableEq, Repr

def Shape.sort : Shape → OperandSort
  | .register | .registerZero => .register
  | .word k => .word k
  | .nibble | .byte | .address => .expression

def Node.sort : Node → OperandSort
  | .register .. => .register
  | .keyword k _ => .word k
  | .number .. | .name .. | .apply .. => .expression

theorem sort_of_accepts {shape : Shape} {n : Node} (h : shape.accepts n = true) :
    n.sort = shape.sort := by
  cases shape with
  | register => cases n <;> first | rfl | cases h
  | registerZero => cases n <;> first | rfl | cases h
  | word k =>
      cases n with
      | keyword k' span =>
          have hk : k = k' := of_decide_eq_true h
          rw [Node.sort, Shape.sort, hk]
      | _ => cases h
  | nibble => cases n <;> first | rfl | cases h
  | byte => cases n <;> first | rfl | cases h
  | address => cases n <;> first | rfl | cases h

namespace Form

/-- What tells a form from all others. -/
def key (f : Form) : List Char × List OperandSort :=
  (f.mnemonic.toList, f.slots.map fun slot => slot.shape.sort)

theorem accepts_iff {f : Form} {operands : List Node} :
    f.accepts operands = true ↔ f.slots.length = operands.length ∧
      ∀ s ∈ f.slots.zip operands, s.1.shape.accepts s.2 = true := by
  rw [accepts, Bool.and_eq_true, decide_eq_true_iff, List.all_eq_true]

theorem sorts_of_accepts {slots : List Slot} {operands : List Node}
    (hlength : slots.length = operands.length)
    (haccepts : ∀ s ∈ slots.zip operands, s.1.shape.accepts s.2 = true) :
    slots.map (fun slot => slot.shape.sort) = operands.map Node.sort := by
  induction slots generalizing operands with
  | nil =>
      cases operands with
      | nil => rfl
      | cons n ns => cases hlength
  | cons slot slots ih =>
      cases operands with
      | nil => cases hlength
      | cons n ns =>
          rw [List.map_cons, List.map_cons,
            sort_of_accepts (haccepts (slot, n) (List.mem_cons_self ..)),
            ih (Nat.succ.inj hlength) fun s hs => haccepts s (List.mem_cons_of_mem _ hs)]

end Form

theorem nodup_keys : (forms.map Form.key).Nodup := by
  decide +kernel

theorem nodup_forms : forms.Nodup := nodup_keys.of_map Form.key

theorem eq_of_key_eq {f g : Form} (hf : f ∈ forms) (hg : g ∈ forms) (h : f.key = g.key) : f = g :=
  List.inj_on_of_nodup_map nodup_keys hf hg h

variable {mnemonic : List Char} {operands : List Node} {form : Form}

theorem mem_matching : form ∈ matching mnemonic operands ↔
    form ∈ forms ∧ form.isNamed mnemonic = true ∧ form.accepts operands = true := by
  unfold matching formsNamed
  rw [List.mem_filter, List.mem_filter, and_assoc]

theorem key_of_mem_matching (h : form ∈ matching mnemonic operands) :
    form.key = (mnemonic.map Char.toUpper, operands.map Node.sort) := by
  obtain ⟨_, hnamed, haccepts⟩ := mem_matching.mp h
  obtain ⟨hlength, hall⟩ := Form.accepts_iff.mp haccepts
  have hname : mnemonic.map Char.toUpper = form.mnemonic.toList := of_decide_eq_true hnamed
  rw [Form.key, hname, Form.sorts_of_accepts hlength hall]

/-- **No instruction is ambiguous.** -/
theorem eq_of_mem_matching {g : Form} (hf : form ∈ matching mnemonic operands)
    (hg : g ∈ matching mnemonic operands) : form = g :=
  eq_of_key_eq (mem_matching.mp hf).1 (mem_matching.mp hg).1
    ((key_of_mem_matching hf).trans (key_of_mem_matching hg).symm)

theorem nodup_matching (mnemonic : List Char) (operands : List Node) :
    (matching mnemonic operands).Nodup :=
  (nodup_forms.filter _).filter _

/-- A form that takes an instruction is the only one. -/
theorem matching_eq_singleton (h : form ∈ matching mnemonic operands) :
    matching mnemonic operands = [form] := by
  have hnodup := nodup_matching mnemonic operands
  cases hmatching : matching mnemonic operands with
  | nil =>
      rw [hmatching] at h
      cases h
  | cons f fs =>
      rw [hmatching] at hnodup
      have hmem : ∀ g ∈ f :: fs, g = form := by
        intro g hg
        rw [← hmatching] at hg
        exact eq_of_mem_matching hg h
      have hf : f = form := hmem f (List.mem_cons_self ..)
      cases fs with
      | nil => rw [hf]
      | cons g gs =>
          have hg : g = form := hmem g (List.mem_cons_of_mem _ (List.mem_cons_self ..))
          rw [hf, hg] at hnodup
          exact absurd (List.mem_cons_self ..) (List.nodup_cons.mp hnodup).1

end Chip8.Asm
