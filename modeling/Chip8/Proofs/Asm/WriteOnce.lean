import Chip8.Asm.Naming
import Chip8.Proofs.Asm.SymbolTable
import Mathlib.Data.List.Induction

/-! # Histories of a symbol table

What a table knows behind any sequence of operations.

* **One operation.** In place, `declare` and `define` do what they say of tables, and so an
  operation that is refused has written nothing (`apply_of_refused`). `symbols_apply` is all that an
  operation can do: it has an effect on every symbol on its own, and it may put one behind the
  others.
* **Histories.** `Recorded` says of a symbol that it is what the operations made of its name. All
  the symbols of a table are (`recorded_run`), and the names stand in the order in which they were
  declared first (`names_run`).
* `write_once` puts this together. -/

namespace Chip8.Asm

/-! ### One operation -/

namespace Naming

variable {t : SymbolTable}

/-- What becomes of a table in place: the new table takes its place, or the old one stays. -/
def outcome (t : SymbolTable) : Except SymbolError SymbolTable →
    EStateM.Result SymbolError SymbolTable Unit
  | .ok t' => .ok () t'
  | .error e => .error e t

theorem run_get_bind {α : Type} (f : SymbolTable → Naming α) :
    (get >>= f : Naming α).run t = (f t).run t := rfl

/-- A name that is not known is put behind the others. -/
theorem run_declare (t : SymbolTable) (name : Identifier) (kind : SymbolKind) (span : Span) :
    (declare name kind span).run t = outcome t (t.declare name kind span) := by
  rw [declare, run_get_bind, SymbolTable.declare]
  cases h : t.get? name with
  | some existing => rfl
  | none =>
      have hinsert : t.insert ⟨name, kind, span, none, false⟩ =
          ⟨t.symbols ++ [⟨name, kind, span, none, false⟩]⟩ := by
        rw [SymbolTable.insert, h]
        rfl
      exact congrArg (EStateM.Result.ok ()) hinsert

theorem run_define (t : SymbolTable) (name : Identifier) (value : Int64) :
    (define name value).run t = outcome t (t.define name value) := by
  rw [define, run_get_bind, SymbolTable.define]
  cases t.get? name with
  | none => rfl
  | some existing =>
      dsimp only
      split <;> rfl

theorem run_bind_ok {α : Type} {p : Naming Unit} {t' : SymbolTable} (h : p.run t = .ok () t')
    (f : Unit → Naming α) : (p >>= f).run t = (f ()).run t' := by
  simp only [EStateM.run, bind, EStateM.bind] at h ⊢
  rw [h]

theorem run_bind_error {α : Type} {p : Naming Unit} {e : SymbolError} (h : p.run t = .error e t)
    (f : Unit → Naming α) : (p >>= f).run t = .error e t := by
  simp only [EStateM.run, bind, EStateM.bind] at h ⊢
  rw [h]

end Naming

namespace SymbolTable

variable {t : SymbolTable} {name : Identifier} {kind : SymbolKind} {span : Span} {value : Int64}
  {op : Operation} {ops before rest : List Operation} {s : Symbol}

namespace Operation

/-- Why an operation is refused, if it is. -/
def refusal? (op : Operation) (t : SymbolTable) : Option SymbolError :=
  match op with
  | declare name _ _ => (t.get? name).map fun s => .duplicate name s.span
  | define name _ =>
      (t.get? name).elim (some (.undeclared name)) fun s =>
        if s.value.isSome then some (.redefined name) else none
  | lookup _ | markUsed _ => none

/-- What an operation tells that is not refused. -/
def told? (op : Operation) (t : SymbolTable) : Option Lookup :=
  match op with
  | lookup name => some (t.lookup name)
  | declare .. | define .. | markUsed _ => none

/-- The table behind an operation that is not refused. -/
def done (op : Operation) (t : SymbolTable) : SymbolTable :=
  match op with
  | declare name kind span => ⟨t.symbols ++ [⟨name, kind, span, none, false⟩]⟩
  | define name value => t.modify name fun s => { s with value := some value }
  | lookup _ => t
  | markUsed name => t.markUsed name

theorem run_act (op : Operation) (t : SymbolTable) :
    op.act.run t = (op.refusal? t).elim (.ok (op.told? t) (op.done t)) fun e => .error e t := by
  cases op with
  | declare name kind span =>
      have hrun := Naming.run_declare t name kind span
      rw [SymbolTable.declare] at hrun
      cases h : t.get? name with
      | none =>
          rw [h] at hrun
          rw [act, Naming.run_bind_ok hrun, refusal?, h]
          rfl
      | some existing =>
          rw [h] at hrun
          rw [act, Naming.run_bind_error hrun, refusal?, h]
          rfl
  | define name value =>
      have hrun := Naming.run_define t name value
      rw [SymbolTable.define] at hrun
      cases h : t.get? name with
      | none =>
          rw [h] at hrun
          rw [act, Naming.run_bind_error hrun, refusal?, h]
          rfl
      | some existing =>
          rw [h] at hrun
          dsimp only at hrun
          rw [act, refusal?, h, Option.elim_some]
          split at hrun
          · rename_i hvalue
            rw [Naming.run_bind_error hrun, if_pos hvalue]
            rfl
          · rename_i hvalue
            rw [Naming.run_bind_ok hrun, if_neg hvalue]
            rfl
  | lookup name => rfl
  | markUsed name => rfl

theorem answer_eq (op : Operation) (t : SymbolTable) :
    op.answer t = (op.refusal? t).elim (.ok (op.told? t)) .error := by
  rw [answer, run_act]
  cases op.refusal? t <;> rfl

theorem apply_eq (op : Operation) (t : SymbolTable) :
    op.apply t = (op.refusal? t).elim (op.done t) fun _ => t := by
  rw [apply, run_act]
  cases op.refusal? t <;> rfl

theorem answer_eq_error_iff {e : SymbolError} :
    op.answer t = .error e ↔ op.refusal? t = some e := by
  rw [answer_eq]
  cases op.refusal? t <;> simp

/-- **A refused operation** leaves the table as it is. -/
theorem apply_of_refused {e : SymbolError} (h : op.answer t = .error e) : op.apply t = t := by
  rw [apply_eq, answer_eq_error_iff.mp h]
  rfl

/-! All that an operation can do. -/

/-- The symbol that an operation declares. -/
def declared? : Operation → Option Symbol
  | declare name kind span => some ⟨name, kind, span, none, false⟩
  | define .. | lookup _ | markUsed _ => none

/-- The value that an operation gives to a name. -/
def given? (op : Operation) (name : Identifier) : Option Int64 :=
  match op with
  | define i value => if i = name then some value else none
  | declare .. | lookup _ | markUsed _ => none

/-- What becomes of a symbol by an operation: it takes a value if it has none yet. -/
def effect (op : Operation) (s : Symbol) : Symbol :=
  { s with value := s.value.or (op.given? s.name), used := s.used || op = .markUsed s.name }

theorem effect_of_or (hvalue : s.value.or (op.given? s.name) = s.value)
    (hop : op ≠ .markUsed s.name) : op.effect s = s := by
  simp [effect, hvalue, hop]

theorem effect_of_given? (h : op.given? s.name = none) (hop : op ≠ .markUsed s.name) :
    op.effect s = s :=
  effect_of_or (by rw [h, Option.or_none]) hop

theorem effect_define_of_ne (h : s.name ≠ name) : (define name value).effect s = s :=
  effect_of_given? (if_neg (Ne.symm h)) nofun

theorem map_effect_of_fixed (op : Operation) (h : ∀ s ∈ t.symbols, op.effect s = s) :
    t.symbols.map op.effect = t.symbols :=
  (List.map_congr_left h).trans (List.map_id t.symbols)

end Operation

/-- A definition has an effect on the one symbol of its name, if that has no value. -/
theorem map_effect_define (hnodup : t.names.Nodup) (h : t.get? name = some s) :
    t.symbols.map (Operation.define name value).effect =
      if s.value.isSome then t.symbols
      else (t.modify name fun s => { s with value := some value }).symbols := by
  have hunique : ∀ u ∈ t.symbols, u.name = name → u = s := by
    intro u hu heq
    have hfound := get?_of_mem hnodup hu
    rw [heq, h] at hfound
    exact (Option.some.inj hfound).symm
  split
  · rename_i hvalue
    obtain ⟨v, hv⟩ := Option.isSome_iff_exists.mp hvalue
    refine Operation.map_effect_of_fixed _ fun u hu => ?_
    by_cases heq : u.name = name
    · exact Operation.effect_of_or (by rw [hunique u hu heq, hv, Option.some_or]) nofun
    · exact Operation.effect_define_of_ne heq
  · rename_i hvalue
    have hnone : s.value = none := by simpa using hvalue
    refine List.map_congr_left fun u hu => ?_
    by_cases heq : u.name = name
    · have hs : s.name = name := hunique u hu heq ▸ heq
      simp [hunique u hu heq, Operation.effect, Operation.given?, hnone, hs]
    · rw [Operation.effect_define_of_ne heq, if_neg heq]

/-- **One operation**, be it refused or not, has its effect on each symbol, and puts the symbol that
it declares behind the others if the name is new. -/
theorem symbols_apply (hnodup : t.names.Nodup) (op : Operation) :
    (op.apply t).symbols =
      t.symbols.map op.effect ++ op.declared?.toList.filter (·.name ∉ t.names) := by
  rw [Operation.apply_eq]
  cases op with
  | declare name kind span =>
      rw [Operation.map_effect_of_fixed (.declare name kind span)
          fun s _ => Operation.effect_of_given? rfl nofun,
        Operation.refusal?]
      cases h : t.get? name with
      | none => simp [Operation.done, Operation.declared?, get?_eq_none_iff.mp h]
      | some existing =>
          obtain ⟨hmem, rfl⟩ := mem_of_get? h
          have hold : existing.name ∈ t.names := List.mem_map_of_mem hmem
          simp [Operation.declared?, hold]
  | define name value =>
      rw [Operation.refusal?]
      cases h : t.get? name with
      | none =>
          have hnew := get?_eq_none_iff.mp h
          have hother : ∀ s ∈ t.symbols, s.name ≠ name :=
            fun s hs heq => hnew (heq ▸ List.mem_map_of_mem hs)
          rw [Operation.map_effect_of_fixed _ fun s hs =>
            Operation.effect_define_of_ne (hother s hs)]
          simp [Operation.declared?]
      | some existing =>
          rw [Option.elim_some, map_effect_define hnodup h]
          split <;> simp [Operation.done, Operation.declared?]
  | lookup name =>
      rw [Operation.map_effect_of_fixed (.lookup name)
        fun s _ => Operation.effect_of_given? rfl nofun]
      simp [Operation.refusal?, Operation.done, Operation.declared?]
  | markUsed name =>
      simp only [Operation.refusal?, Option.elim_none, Operation.done, markUsed, modify,
        Operation.declared?, Option.toList_none, List.filter_nil, List.append_nil]
      refine List.map_congr_left fun s _ => ?_
      by_cases heq : s.name = name
      · simp [heq, Operation.effect, Operation.given?]
      · rw [if_neg heq, Operation.effect_of_given? rfl (by simpa using Ne.symm heq)]

theorem names_apply (hnodup : t.names.Nodup) (op : Operation) :
    (op.apply t).names =
      t.names ++ (op.declared?.toList.map Symbol.name).filter (· ∉ t.names) := by
  have hnames : (t.symbols.map op.effect).map Symbol.name = t.names := List.map_map ..
  simp only [names, symbols_apply hnodup, List.map_append] at hnames ⊢
  rw [hnames, List.filter_map]
  rfl

theorem nodup_apply (hnodup : t.names.Nodup) (op : Operation) : (op.apply t).names.Nodup := by
  rw [names_apply hnodup]
  refine List.nodup_append.mpr ⟨hnodup, ?_, fun a ha b hb heq => ?_⟩
  · cases op.declared? with
    | none => exact List.nodup_nil
    | some s => exact List.Pairwise.filter _ (List.pairwise_singleton ..)
  · have hnew := (List.mem_filter.mp hb).2
    simp [← heq, ha] at hnew

/-! ### Histories -/

theorem nodup_empty : empty.names.Nodup := List.nodup_nil

theorem run_append (t : SymbolTable) (before after : List Operation) :
    t.run (before ++ after) = (t.run before).run after :=
  List.foldl_append ..

theorem nodup_run (hnodup : t.names.Nodup) (ops : List Operation) : (t.run ops).names.Nodup := by
  induction ops generalizing t with
  | nil => exact hnodup
  | cons op ops ih => exact ih (nodup_apply hnodup op)

/-- What becomes of a symbol in the course of time. Its value stays, if it has one. -/
structure Kept (s s' : Symbol) : Prop where
  name : s'.name = s.name
  kind : s'.kind = s.kind
  span : s'.span = s.span
  value : ∀ v, s.value = some v → s'.value = some v
  used : s.used = true → s'.used = true

theorem kept_effect (op : Operation) (s : Symbol) : Kept s (op.effect s) where
  name := rfl
  kind := rfl
  span := rfl
  value v hv := by simp [Operation.effect, hv]
  used hused := by simp [Operation.effect, hused]

/-- **Symbols stay**, and the values that they have. -/
theorem kept_run (hnodup : t.names.Nodup) (hs : s ∈ t.symbols) (later : List Operation) :
    ∃ s' ∈ (t.run later).symbols, Kept s s' := by
  induction later generalizing t s with
  | nil => exact ⟨s, hs, rfl, rfl, rfl, fun _ hv => hv, fun hused => hused⟩
  | cons op later ih =>
      have hnext : op.effect s ∈ (op.apply t).symbols := by
        rw [symbols_apply hnodup]
        exact List.mem_append_left _ (List.mem_map_of_mem hs)
      obtain ⟨s', hs', hkept⟩ := ih (nodup_apply hnodup op) hnext
      have hfirst := kept_effect op s
      exact ⟨s', hs', hkept.name.trans hfirst.name, hkept.kind.trans hfirst.kind,
        hkept.span.trans hfirst.span, fun v hv => hkept.value v (hfirst.value v hv),
        fun hused => hkept.used (hfirst.used hused)⟩

/-- The names that operations declare, in their order. -/
def declaredNames (ops : List Operation) : List Identifier :=
  (ops.filterMap Operation.declared?).map Symbol.name

/-- **Names** stand in the order in which they were declared first. -/
theorem names_run (ops : List Operation) :
    (empty.run ops).names = (declaredNames ops).eraseDups := by
  induction ops using List.reverseRecOn with
  | nil => rfl
  | append_singleton ops op ih =>
      have hsplit : declaredNames (ops ++ [op]) =
          declaredNames ops ++ op.declared?.toList.map Symbol.name := by
        simp only [declaredNames, List.filterMap_append, List.map_append]
        cases h : op.declared? <;> simp [h]
      have hknown : ∀ name, name ∈ (empty.run ops).names ↔ name ∈ declaredNames ops := by
        intro name
        rw [ih, List.mem_eraseDups]
      rw [hsplit, List.eraseDups_append, ← ih, run_append]
      show (op.apply (empty.run ops)).names = _
      rw [names_apply (nodup_run nodup_empty ops)]
      congr 1
      cases op.declared? with
      | none => rfl
      | some s =>
          by_cases hs : s.name ∈ declaredNames ops
          · simp [List.removeAll, hknown, hs]
          · simp [List.removeAll, hknown, hs, List.eraseDups_cons]

/-- A name that is not in the table has not been declared. -/
theorem not_declared (h : name ∉ (empty.run ops).names) (kind : SymbolKind) (span : Span) :
    .declare name kind span ∉ ops := by
  intro hmem
  rw [names_run, List.mem_eraseDups] at h
  have hdeclared : (⟨name, kind, span, none, false⟩ : Symbol) ∈
      ops.filterMap Operation.declared? := List.mem_filterMap.mpr ⟨_, hmem, rfl⟩
  exact h (List.mem_map_of_mem hdeclared)

/-- A symbol is what operations made of its name, if `before` is what they did in front of its first
declaration and `rest` is what they did behind it. -/
structure Recorded (ops : List Operation) (s : Symbol) (before rest : List Operation) : Prop where
  declared : ops = before ++ .declare s.name s.kind s.span :: rest
  first : ∀ kind span, .declare s.name kind span ∉ before
  value : s.value = rest.findSome? fun op => op.given? s.name
  used : s.used = true ↔ .markUsed s.name ∈ rest

theorem Recorded.effect (h : Recorded ops s before rest) (op : Operation) :
    Recorded (ops ++ [op]) (op.effect s) before (rest ++ [op]) where
  declared := by
    show ops ++ [op] = before ++ .declare s.name s.kind s.span :: (rest ++ [op])
    rw [h.declared, List.append_assoc, List.cons_append]
  first := h.first
  value := by
    show s.value.or (op.given? s.name) = _
    rw [h.value, List.findSome?_append, List.findSome?_singleton]
    rfl
  used := by
    show (s.used || decide (op = .markUsed s.name)) = true ↔ .markUsed s.name ∈ rest ++ [op]
    rw [Bool.or_eq_true, h.used, decide_eq_true_eq, List.mem_append, List.mem_singleton, eq_comm]

theorem recorded_run (ops : List Operation) :
    ∀ s ∈ (empty.run ops).symbols, ∃ before rest, Recorded ops s before rest := by
  induction ops using List.reverseRecOn with
  | nil => exact nofun
  | append_singleton ops op ih =>
      rw [run_append]
      show ∀ s ∈ (op.apply (empty.run ops)).symbols, _
      rw [symbols_apply (nodup_run nodup_empty ops)]
      intro s hs
      rcases List.mem_append.mp hs with hs | hs
      · obtain ⟨u, hu, rfl⟩ := List.mem_map.mp hs
        obtain ⟨before, rest, h⟩ := ih u hu
        exact ⟨before, rest ++ [op], h.effect op⟩
      · obtain ⟨hs, hnew⟩ := List.mem_filter.mp hs
        rw [decide_eq_true_eq] at hnew
        cases op with
        | declare name kind span =>
            obtain rfl := List.mem_singleton.mp hs
            exact ⟨ops, [], rfl, not_declared hnew, rfl, by simp⟩
        | define name value => cases hs
        | lookup name => cases hs
        | markUsed name => cases hs

/-! ### Write once -/

theorem refusal_declare_iff (hnodup : t.names.Nodup) {e : SymbolError} :
    (Operation.declare name kind span).refusal? t = some e ↔
      ∃ s ∈ t.symbols, s.name = name ∧ e = .duplicate name s.span := by
  simp only [Operation.refusal?, Option.map_eq_some_iff, get?_eq_some_iff hnodup, and_assoc]
  exact exists_congr fun s => and_congr_right fun _ => and_congr_right fun _ => eq_comm

theorem refusal_define_iff (hnodup : t.names.Nodup) {e : SymbolError} :
    (Operation.define name value).refusal? t = some e ↔
      (name ∉ t.names ∧ e = .undeclared name) ∨
        ∃ s ∈ t.symbols, s.name = name ∧ s.value.isSome = true ∧ e = .redefined name := by
  have hfound : (Operation.define name value).refusal? t = some e ↔
      (t.get? name = none ∧ e = .undeclared name) ∨
        ∃ s, t.get? name = some s ∧ s.value.isSome = true ∧ e = .redefined name := by
    rw [Operation.refusal?]
    cases t.get? name with
    | none => simpa using eq_comm
    | some s =>
        cases hvalue : s.value with
        | none => simp [hvalue]
        | some v => simpa [hvalue] using eq_comm
  simp only [hfound, get?_eq_none_iff, get?_eq_some_iff hnodup, and_assoc]

/-- **A table is written once.** Behind any sequence of operations, the table lists the declared names
once each, in the order in which they were declared first, and every symbol is what the operations
made of its name: kind and place are those of the first declaration, the value is the first one that
it was given behind that, and it is used if it was marked behind that.

Whatever is asked next, what is refused leaves the table as it is. A declaration is refused if the
name is in the table, with the place that it has there, and a definition if the name is not there or
has a value. What a symbol is, and its value once it has one, stays for all time. -/
theorem write_once (ops : List Operation) :
    let t := empty.run ops
    (t.names = (declaredNames ops).eraseDups ∧ t.names.Nodup) ∧
    (∀ s ∈ t.symbols, ∃ before rest, Recorded ops s before rest) ∧
    (∀ op e, Operation.answer op t = .error e → op.apply t = t) ∧
    (∀ name kind span e, (Operation.declare name kind span).answer t = .error e ↔
      ∃ s ∈ t.symbols, s.name = name ∧ e = .duplicate name s.span) ∧
    (∀ name value e, (Operation.define name value).answer t = .error e ↔
      (name ∉ t.names ∧ e = .undeclared name) ∨
        ∃ s ∈ t.symbols, s.name = name ∧ s.value.isSome = true ∧ e = .redefined name) ∧
    (∀ later, ∀ s ∈ t.symbols, ∃ s' ∈ (t.run later).symbols, Kept s s') ∧
    (∀ later name value, t.lookup name = .value value →
      (t.run later).lookup name = .value value) := by
  intro t
  have hnodup : t.names.Nodup := nodup_run nodup_empty ops
  refine ⟨⟨names_run ops, hnodup⟩, recorded_run ops, fun op e => Operation.apply_of_refused,
    fun name kind span e => ?_, fun name value e => ?_, fun later s hs => kept_run hnodup hs later,
    fun later name value hvalue => ?_⟩
  · rw [Operation.answer_eq_error_iff, refusal_declare_iff hnodup]
  · rw [Operation.answer_eq_error_iff, refusal_define_iff hnodup]
  · obtain ⟨s, hs, rfl, hv⟩ := (lookup_eq_value_iff hnodup).mp hvalue
    obtain ⟨s', hs', hkept⟩ := kept_run hnodup hs later
    exact (lookup_eq_value_iff (nodup_run hnodup later)).mpr
      ⟨s', hs', hkept.name, hkept.value value hv⟩

/-- Two names, of which the second one is declared again, used, and given a value twice. -/
def twice (a b : Identifier) : List Operation :=
  [.markUsed b, .declare b .label ⟨0, 1⟩, .declare a .constant ⟨8, 1⟩, .define a 5,
    .declare a .label ⟨12, 1⟩, .markUsed a, .lookup b, .define a 6]

theorem write_once_twice :
    ∃ a b : Identifier, a ≠ b ∧
      (empty.run (twice a b)).symbols =
        [⟨b, .label, ⟨0, 1⟩, none, false⟩, ⟨a, .constant, ⟨8, 1⟩, some 5, true⟩] ∧
      (Operation.declare a .label ⟨20, 1⟩).answer (empty.run (twice a b)) =
        .error (.duplicate a ⟨8, 1⟩) ∧
      (Operation.declare a .label ⟨20, 1⟩).apply (empty.run (twice a b)) =
        empty.run (twice a b) ∧
      ((empty.run (twice a b)).run [.define a 7, .define b 7]).lookup a = .value 5 := by
  refine ⟨⟨['a'], rfl⟩, ⟨['b'], rfl⟩, by decide, by decide, ?_⟩
  obtain ⟨-, -, hrefused, hdeclare, -, -, hstays⟩ :=
    write_once (twice ⟨['a'], rfl⟩ ⟨['b'], rfl⟩)
  have hanswer := (hdeclare ⟨['a'], rfl⟩ .label ⟨20, 1⟩ (.duplicate ⟨['a'], rfl⟩ ⟨8, 1⟩)).mpr
    ⟨⟨⟨['a'], rfl⟩, .constant, ⟨8, 1⟩, some 5, true⟩, by decide, rfl, rfl⟩
  exact ⟨hanswer, hrefused _ _ hanswer, hstays _ _ _ (by decide)⟩

end SymbolTable

end Chip8.Asm
