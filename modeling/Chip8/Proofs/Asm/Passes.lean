import Chip8.Proofs.Asm.Layout

/-! # From the first pass to the second

The first pass values some expressions in a table in which not all names have values yet. What it
finds there is what the second pass finds in the final table.

* `SymbolTable.Extends.of_names` is the order between tables in terms of the declared names.
* `Layout.behindLabel` is where the first pass stands when it turns to the body of a statement:
  every expression that it values is valued there.
* `Layout.extends_through`: the table that the second pass uses extends the one of every such place,
  whether or not a statement on the way is wrong.
* `evaluation_monotone` puts both together. -/

namespace Chip8.Asm

namespace SymbolTable

variable {t t' : SymbolTable}

theorem lookup_eq_unknown_iff {i : Identifier} : t.lookup i = .unknown ↔ i ∉ t.names := by
  rw [← get?_eq_none_iff]
  unfold lookup
  cases t.get? i with
  | none => simp
  | some s =>
      simp only [reduceCtorEq, iff_false]
      cases s.value <;> simp

/-- A table extends one with the same names if it knows the values that the other knows. -/
theorem Extends.of_names (hnames : ∀ i, i ∈ t'.names ↔ i ∈ t.names)
    (hvalues : ∀ i v, t.lookup i = .value v → t'.lookup i = .value v) : t.Extends t' := by
  refine ⟨fun i => ?_, hvalues⟩
  rw [lookup_eq_unknown_iff, lookup_eq_unknown_iff, hnames i]

end SymbolTable

/-! ### Results -/

theorem Refines.of_error {e : EvalError} {r : Except EvalError Value}
    (h : Refines (.error e) r) : ∃ e', r = .error e' := by
  cases h with
  | error _ e' => exact ⟨e', rfl⟩

/-- A result that was not undefined changes at most from one error to another. -/
theorem Refines.cases_of_ne {r r' : Except EvalError Value} (h : Refines r r') (hne : r' ≠ r) :
    r = .ok .undefined ∨ ∃ e e', r = .error e ∧ r' = .error e' := by
  cases h with
  | undefined _ => exact .inl rfl
  | error e e' => exact .inr ⟨e, e', rfl, rfl⟩
  | same v => exact absurd rfl hne

/-- Once a tree has a number without asking for all names, it has this number in every table that
knows more. -/
theorem Node.numberIn_of_extends {t t' : SymbolTable} (h : t.Extends t') {n : Node} {v : Int64}
    (hv : n.tryNumberIn t = .ok (some v)) : n.numberIn t' = .ok v :=
  numberIn_mono h (numberIn_of_tryNumberIn hv)

/-! ### Places of the first pass -/

namespace Layout

/-- Where the first pass is between the label and the body of a statement. -/
def behindLabel (l : Layout) (s : Statement) : Layout :=
  (l.statement { s with body := none }).1

theorem statement_eq (l : Layout) (s : Statement) :
    (l.statement s).1 =
      match s.body with
      | some b => ((l.behindLabel s).body s.span b).1
      | none => l.behindLabel s := by
  unfold behindLabel statement
  cases s.body <;> rfl

theorem extends_behindLabel (l : Layout) (s : Statement) :
    l.symbols.Extends (l.behindLabel s).symbols := by
  unfold behindLabel statement
  cases s.label with
  | none => exact .refl _
  | some label => exact (extends_define label _).1

/-- The body of a statement only adds to what is known behind its label. -/
theorem behindLabel_extends (l : Layout) (s : Statement) :
    (l.behindLabel s).symbols.Extends (l.statement s).1.symbols := by
  rw [statement_eq]
  cases s.body with
  | none => exact .refl _
  | some b => exact (extends_body s.span b).1

theorem statements_append (l : Layout) (before after : List Statement) :
    (l.statements (before ++ after)).1 = ((l.statements before).1.statements after).1 := by
  induction before generalizing l with
  | nil => rfl
  | cons s before ih => exact ih (l.statement s).1

/-- **The first pass only learns**: errors on the way do not matter. -/
theorem extends_all (l : Layout) (ss : List Statement) :
    l.symbols.Extends (l.statements ss).1.symbols := by
  induction ss generalizing l with
  | nil => exact .refl _
  | cons s ss ih =>
      have hstep : l.symbols.Extends (l.statement s).1.symbols :=
        (extends_behindLabel l s).trans (behindLabel_extends l s)
      exact hstep.trans (ih (l.statement s).1)

/-- What is known at a statement is known at the end. -/
theorem extends_through (l : Layout) (before after : List Statement) (s : Statement) :
    ((l.statements before).1.behindLabel s).symbols.Extends
      (l.statements (before ++ s :: after)).1.symbols := by
  rw [statements_append]
  exact (behindLabel_extends _ s).trans (extends_all _ after)

end Layout

/-! ### The two passes agree -/

/-- **Evaluation is monotone in the table.** For two tables with the same names, one of which knows
the values of the other, every tree keeps a number or boolean, an error stays an error, and only an
undefined result may become another. So what the first pass values at any statement has the same
value in the table of the second pass. -/
theorem evaluation_monotone :
    (∀ (t t' : SymbolTable) (n : Node),
      (∀ i, i ∈ t'.names ↔ i ∈ t.names) →
      (∀ i v, t.lookup i = .value v → t'.lookup i = .value v) →
        (∀ v, n.evaluate t = .ok (.number v) → n.evaluate t' = .ok (.number v)) ∧
        (∀ b, n.evaluate t = .ok (.boolean b) → n.evaluate t' = .ok (.boolean b)) ∧
        (∀ e, n.evaluate t = .error e → ∃ e', n.evaluate t' = .error e') ∧
        (n.evaluate t' ≠ n.evaluate t → n.evaluate t = .ok .undefined ∨
          ∃ e e', n.evaluate t = .error e ∧ n.evaluate t' = .error e')) ∧
    (∀ (start : Layout) (before after : List Statement) (s : Statement) (n : Node),
      let first := ((start.statements before).1.behindLabel s).symbols
      let final := (start.statements (before ++ s :: after)).1.symbols
      (∀ v, v ≠ .undefined → n.evaluate first = .ok v → n.evaluate final = .ok v) ∧
      (∀ v, n.tryNumberIn first = .ok (some v) → n.numberIn final = .ok v)) := by
  constructor
  · intro t t' n hnames hvalues
    have hrefines := n.evaluate_refines (.of_names hnames hvalues)
    refine ⟨fun v hv => ?_, fun b hb => ?_, fun e he => ?_, hrefines.cases_of_ne⟩
    · rw [hv] at hrefines
      exact hrefines.of_ok (by simp)
    · rw [hb] at hrefines
      exact hrefines.of_ok (by simp)
    · rw [he] at hrefines
      exact hrefines.of_error
  · intro start before after s n first final
    have hextends : first.Extends final := start.extends_through before after s
    refine ⟨fun v hv h => ?_, fun v h => n.numberIn_of_extends hextends h⟩
    have hrefines := n.evaluate_refines hextends
    rw [h] at hrefines
    exact hrefines.of_ok hv

/-- A constant `n` and a label `a`. -/
def lateLabel (address : Option Int64) : SymbolTable :=
  ⟨[⟨⟨['n'], rfl⟩, .constant, ⟨0, 1⟩, some 3, false⟩,
    ⟨⟨['a'], rfl⟩, .label, ⟨2, 1⟩, address, false⟩]⟩

theorem lookup_lateLabel (address : Option Int64) {i : Identifier} {v : Int64}
    (h : (lateLabel none).lookup i = .value v) : (lateLabel address).lookup i = .value v := by
  simp only [lateLabel, SymbolTable.lookup, SymbolTable.get?, List.find?_cons,
    List.find?_nil] at h ⊢
  by_cases hn : (⟨['n'], rfl⟩ : Identifier) = i
  · simpa [hn] using h
  · by_cases ha : (⟨['a'], rfl⟩ : Identifier) = i <;> simp [hn, ha] at h

/-- `a / 0`, which is an error as soon as `a` has a value. -/
def lateQuotient : Node :=
  .apply .div [.name ⟨['a'], rfl⟩ ⟨0, 1⟩, .number 0 ⟨4, 1⟩] ⟨0, 5⟩

/-- A line `a:`. -/
def lateLine : Statement := ⟨some ⟨⟨['a'], rfl⟩, ⟨2, 1⟩⟩, none, none, ⟨2, 2⟩⟩

/-- A number that is kept, an error in place of another one, and a label that is valued behind
itself. -/
theorem evaluation_monotone_lateLabel :
    (lateLabel (some 7)).names = (lateLabel none).names ∧
    (Node.apply .sub [.name ⟨['n'], rfl⟩ ⟨0, 1⟩, .number 5 ⟨4, 1⟩] ⟨0, 5⟩).evaluate
        (lateLabel (some 7)) = .ok (.number (-2)) ∧
    (∃ e, (Node.apply .add [lateQuotient, .register 1 ⟨8, 2⟩] ⟨0, 10⟩).evaluate
        (lateLabel (some 7)) = .error e) ∧
    (Node.name ⟨['a'], rfl⟩ ⟨0, 1⟩).numberIn
      (Layout.statements ⟨.ofOrigin 0x200, lateLabel none⟩ [lateLine]).1.symbols = .ok 0x200 := by
  have hkeep := fun n => evaluation_monotone.1 (lateLabel none) (lateLabel (some 7)) n
    (fun _ => Iff.rfl) (fun _ _ => lookup_lateLabel (some 7))
  refine ⟨rfl, (hkeep _).1 (-2) rfl, (hkeep _).2.2.1 (.register ⟨8, 2⟩) rfl, ?_⟩
  exact (evaluation_monotone.2 ⟨.ofOrigin 0x200, lateLabel none⟩ [] [] lateLine
    (.name ⟨['a'], rfl⟩ ⟨0, 1⟩)).2 0x200 rfl

end Chip8.Asm
