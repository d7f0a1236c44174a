import Chip8.Proofs.Asm.Arithmetic

/-! # What expressions mean

The evaluation of trees against their meaning over the integers.

* `Node.meaning?` is the reference: the meaning of a tree all of whose names have values.
* `Node.evaluate?` values a tree like `Node.evaluate` and answers `none` where an operator has no
  case for its operands.
* `Interpreted t n` says what the value of a tree `n` in a table `t` is: that there always is an
  answer, which one it is, when there is none yet, and how the demands for a number agree.
  `evaluation_interprets` proves it for every table and every tree, well-formed or not. -/

namespace Chip8.Asm.Node

variable (t : SymbolTable)

mutual

/-- What a tree stands for, if everything in it has a meaning. -/
def meaning? : Node → Option Meaning
  | number v _ => some (.number v.toInt)
  | register _ _ => none
  | keyword _ _ => none
  | name i _ =>
      match t.lookup i with
      | .value v => some (.number v.toInt)
      | .undefined => none
      | .unknown => none
  | apply op operands _ =>
      match meanings? operands with
      | some ms => op.meaning? ms
      | none => none

def meanings? : List Node → Option (List Meaning)
  | [] => some []
  | n :: ns =>
      match n.meaning?, meanings? ns with
      | some m, some ms => some (m :: ms)
      | _, _ => none

end

mutual

/-- The value of a tree, unless an operator in it meets operands that no case covers. -/
def evaluate? : Node → Option (Except EvalError Value)
  | number n _ => some (.ok (.number n))
  | register _ s => some (.error (.register s))
  | keyword _ s => some (.error (.keyword s))
  | name i s =>
      match t.lookup i with
      | .value n => some (.ok (.number n))
      | .undefined => some (.ok .undefined)
      | .unknown => some (.error (.unknown i s))
  | apply op operands s =>
      if operands.length = op.arity then
        match evaluateAll? operands with
        | some (.ok values) => op.applyChecked s values
        | some (.error e) => some (.error e)
        | none => none
      else some (.error (.arity op operands.length s))

def evaluateAll? : List Node → Option (Except EvalError (List Value))
  | [] => some (.ok [])
  | n :: ns =>
      match n.evaluate? with
      | none => none
      | some (.error e) => some (.error e)
      | some (.ok v) =>
          match evaluateAll? ns with
          | none => none
          | some (.error e) => some (.error e)
          | some (.ok vs) => some (.ok (v :: vs))

end

variable {t}

/-! ### Operands of a tree -/

theorem evaluateAll_eq_ok {ns : List Node} {vs : List Value} :
    evaluateAll t ns = .ok vs ↔ List.Forall₂ (fun n v => n.evaluate t = .ok v) ns vs := by
  induction ns generalizing vs with
  | nil =>
      rw [evaluateAll, List.forall₂_nil_left_iff]
      exact ⟨fun h => by cases h; rfl, fun h => by rw [h]⟩
  | cons n ns ih =>
      rw [evaluateAll, List.forall₂_cons_left_iff]
      constructor
      · intro h
        split at h
        · cases h
        · rename_i v hv
          split at h
          · cases h
          · rename_i ws hws
            cases h
            exact ⟨v, ws, hv, ih.mp hws, rfl⟩
      · rintro ⟨v, ws, hv, hws, rfl⟩
        rw [hv, ih.mpr hws]

theorem exists_of_forall₂ {ns : List Node} {vs : List Value}
    (h : List.Forall₂ (fun n v => n.evaluate t = .ok v) ns vs) :
    ∀ n ∈ ns, ∃ v, n.evaluate t = .ok v := by
  induction h with
  | nil => simp
  | @cons n v ns vs hv _ ih =>
      rw [List.forall_mem_cons]
      exact ⟨⟨v, hv⟩, ih⟩

/-- An operator is strict: if it has a value, every operand has one. -/
theorem evaluate_apply_eq_ok {op : Operator} {ns : List Node} {s : Span} {v : Value}
    (h : (apply op ns s).evaluate t = .ok v) :
    ∃ vs, List.Forall₂ (fun n v => n.evaluate t = .ok v) ns vs ∧ vs.length = op.arity ∧
      op.apply s vs = .ok v := by
  rw [evaluate] at h
  split at h
  · rename_i hlength
    split at h
    · rename_i vs hvs
      have hall := evaluateAll_eq_ok.mp hvs
      exact ⟨vs, hall, hall.length_eq ▸ hlength, h⟩
    · cases h
  · cases h

theorem evaluate_apply {op : Operator} {ns : List Node} {vs : List Value}
    (h : List.Forall₂ (fun n v => n.evaluate t = .ok v) ns vs) (hlength : vs.length = op.arity)
    (s : Span) : (apply op ns s).evaluate t = op.apply s vs := by
  rw [evaluate, if_pos (h.length_eq.trans hlength), evaluateAll_eq_ok.mpr h]

/-! ### The cases are complete -/

mutual

theorem evaluate?_eq : ∀ n : Node, n.evaluate? t = some (n.evaluate t)
  | number _ _ | register _ _ | keyword _ _ => rfl
  | name i s => by
      rw [evaluate?, evaluate]
      cases t.lookup i <;> rfl
  | apply op operands s => by
      rw [evaluate?, evaluate, evaluateAll?_eq operands]
      split
      · rename_i hlength
        cases hvs : evaluateAll t operands with
        | error e => rfl
        | ok vs =>
            have hall := evaluateAll_eq_ok.mp hvs
            exact op.applyChecked_eq_some s (hall.length_eq ▸ hlength)
      · rfl

theorem evaluateAll?_eq : ∀ ns : List Node, evaluateAll? t ns = some (evaluateAll t ns)
  | [] => rfl
  | n :: ns => by
      rw [evaluateAll?, evaluateAll, evaluate?_eq n, evaluateAll?_eq ns]
      cases n.evaluate t with
      | error e => rfl
      | ok v => cases evaluateAll t ns <;> rfl

end

/-! ### Undefined names -/

/-- The tree has a name that is declared and has no value. -/
def Awaits (t : SymbolTable) (n : Node) : Prop :=
  ∃ i s, (i, s) ∈ n.identifiers ∧ t.lookup i = .undefined

theorem awaits_apply {op : Operator} {ns : List Node} {s : Span} :
    (apply op ns s).Awaits t ↔ ∃ n ∈ ns, n.Awaits t := by
  unfold Awaits
  rw [identifiers, identifiersOfAll_eq_flatMap]
  simp only [List.mem_flatMap]
  constructor
  · rintro ⟨i, s, ⟨n, hn, hi⟩, hundef⟩
    exact ⟨n, hn, i, s, hi, hundef⟩
  · rintro ⟨n, hn, i, s, hi, hundef⟩
    exact ⟨i, s, ⟨n, hn, hi⟩, hundef⟩

mutual

/-- A tree without an error is undefined just as long as it awaits the value of a name. -/
theorem undefined_iff_awaits : ∀ (n : Node) {v : Value}, n.evaluate t = .ok v →
    (v = .undefined ↔ n.Awaits t)
  | number _ _, _, h => by
      cases h
      simp [Awaits, identifiers]
  | register _ _, _, h => nomatch h
  | keyword _ _, _, h => nomatch h
  | name i s, v, h => by
      rw [evaluate] at h
      have hawaits : (name i s).Awaits t ↔ t.lookup i = .undefined := by
        simp [Awaits, identifiers]
      rw [hawaits]
      cases hi : t.lookup i with
      | unknown => rw [hi] at h; cases h
      | undefined => rw [hi] at h; cases h; simp
      | value n => rw [hi] at h; cases h; simp
  | apply op ns s, v, h => by
      obtain ⟨vs, hvs, hlength, happly⟩ := evaluate_apply_eq_ok h
      rw [op.undefined_of_apply s hlength happly, awaits_apply]
      exact undefined_mem_iff_awaits ns hvs

theorem undefined_mem_iff_awaits : ∀ (ns : List Node) {vs : List Value},
    List.Forall₂ (fun n v => n.evaluate t = .ok v) ns vs →
      (.undefined ∈ vs ↔ ∃ n ∈ ns, n.Awaits t)
  | [], _, h => by
      cases h
      simp
  | n :: ns, _, h => by
      obtain ⟨v, vs, hv, hvs, rfl⟩ := List.forall₂_cons_left_iff.mp h
      have hhead := undefined_iff_awaits n hv
      have htail := undefined_mem_iff_awaits ns hvs
      rw [List.mem_cons, eq_comm, hhead, htail]
      simp

end

/-- Without an error, a tree is undefined just as long as a name in it is. -/
theorem evaluate_eq_undefined_iff (n : Node) :
    n.evaluate t = .ok .undefined ↔ (∀ e, n.evaluate t ≠ .error e) ∧ n.Awaits t := by
  constructor
  · intro h
    refine ⟨fun e he => ?_, (undefined_iff_awaits n h).mp rfl⟩
    rw [h] at he
    cases he
  · rintro ⟨hok, hawaits⟩
    cases hr : n.evaluate t with
    | error e => exact absurd hr (hok e)
    | ok v => rw [(undefined_iff_awaits n hr).mpr hawaits]

/-! ### Meanings -/

mutual

/-- **Values have the meaning of the reference**, and nothing else has one. -/
theorem meaning?_eq_some : ∀ (n : Node) {m : Meaning},
    n.meaning? t = some m ↔ ∃ v, n.evaluate t = .ok v ∧ v.meaning? = some m
  | number v s, m => by simp [meaning?, evaluate, Value.meaning?]
  | register _ _, m => by simp [meaning?, evaluate]
  | keyword _ _, m => by simp [meaning?, evaluate]
  | name i s, m => by
      rw [meaning?, evaluate]
      cases t.lookup i <;> simp [Value.meaning?]
  | apply op ns s, m => by
      constructor
      · intro h
        rw [meaning?] at h
        split at h
        · rename_i ms hms
          obtain ⟨vs, hvs, hmeans⟩ := (meanings?_eq_some ns).mp hms
          have hlength : vs.length = op.arity := hmeans.length_eq.trans (op.length_of_meaning? h)
          rw [op.meaning?_apply s hmeans hlength] at h
          rw [evaluate_apply hvs hlength]
          cases hr : op.apply s vs with
          | error e => rw [hr] at h; cases h
          | ok v =>
              rw [hr] at h
              exact ⟨v, rfl, h⟩
        · cases h
      · rintro ⟨v, hv, hm⟩
        obtain ⟨vs, hvs, hlength, happly⟩ := evaluate_apply_eq_ok hv
        have hundef : .undefined ∉ vs := by
          rw [← op.undefined_of_apply s hlength happly]
          rintro rfl
          cases hm
        obtain ⟨ms, hmeans⟩ := exists_meanings hundef
        rw [meaning?, (meanings?_eq_some ns).mpr ⟨vs, hvs, hmeans⟩]
        dsimp only
        rw [op.meaning?_apply s hmeans hlength, happly]
        exact hm

theorem meanings?_eq_some : ∀ (ns : List Node) {ms : List Meaning},
    meanings? t ns = some ms ↔
      ∃ vs, List.Forall₂ (fun n v => n.evaluate t = .ok v) ns vs ∧
        List.Forall₂ (fun v m => v.meaning? = some m) vs ms
  | [], ms => by
      rw [meanings?]
      constructor
      · rintro ⟨⟩
        exact ⟨[], .nil, .nil⟩
      · rintro ⟨vs, hvs, hmeans⟩
        cases hvs
        cases hmeans
        rfl
  | n :: ns, ms => by
      rw [meanings?]
      constructor
      · intro h
        split at h
        · rename_i m ms hm hms
          cases h
          obtain ⟨v, hv, hvm⟩ := (meaning?_eq_some n).mp hm
          obtain ⟨vs, hvs, hmeans⟩ := (meanings?_eq_some ns).mp hms
          exact ⟨v :: vs, .cons hv hvs, .cons hvm hmeans⟩
        · cases h
      · rintro ⟨_, hall, hmeans⟩
        obtain ⟨v, vs, hv, hvs, rfl⟩ := List.forall₂_cons_left_iff.mp hall
        obtain ⟨m, ms, hvm, hms, rfl⟩ := List.forall₂_cons_left_iff.mp hmeans
        rw [(meaning?_eq_some n).mpr ⟨v, hv, hvm⟩, (meanings?_eq_some ns).mpr ⟨vs, hvs, hms⟩]

end

/-! ### Demands for a number -/

/-- The error of a demand for a number that an undefined tree does not meet. -/
def Unmet (e : EvalError) : Prop :=
  (∃ i s, e = .undefined i s) ∨ ∃ s, e = .undefinedValue s

mutual

theorem not_unmet : ∀ (n : Node) {e : EvalError}, n.evaluate t = .error e → ¬ Unmet e
  | number _ _, _, h => nomatch h
  | register _ _, _, h => by
      cases h
      simp [Unmet]
  | keyword _ _, _, h => by
      cases h
      simp [Unmet]
  | name i s, _, h => by
      rw [evaluate] at h
      cases hi : t.lookup i <;> rw [hi] at h <;> cases h
      simp [Unmet]
  | apply op ns s, e, h => by
      rw [evaluate] at h
      split at h
      · split at h
        · rcases op.error_of_apply s h with rfl | ⟨b, rfl⟩ | rfl <;> simp [Unmet]
        · rename_i he
          cases h
          exact not_unmet_all ns he
      · cases h
        simp [Unmet]

theorem not_unmet_all : ∀ (ns : List Node) {e : EvalError},
    evaluateAll t ns = .error e → ¬ Unmet e
  | [], _, h => nomatch h
  | n :: ns, e, h => by
      rw [evaluateAll] at h
      split at h
      · rename_i he
        cases h
        exact not_unmet n he
      · split at h
        · rename_i he
          cases h
          exact not_unmet_all ns he
        · cases h

end

/-- `i` at `s` is the leftmost name of a tree that is declared and has no value. -/
def Leftmost (t : SymbolTable) (n : Node) (i : Identifier) (s : Span) : Prop :=
  ∃ before after, n.identifiers = before ++ (i, s) :: after ∧ t.lookup i = .undefined ∧
    ∀ p ∈ before, t.lookup p.1 ≠ .undefined

theorem leftmost_iff {n : Node} {i : Identifier} {s : Span} :
    n.Leftmost t i s ↔
      n.identifiers.find? (fun (i, _) => t.lookup i = .undefined) = some (i, s) := by
  rw [List.find?_eq_some_iff_append]
  unfold Leftmost
  constructor
  · rintro ⟨before, after, happend, hundef, hbefore⟩
    exact ⟨by simpa using hundef, before, after, happend, fun p hp => by simpa using hbefore p hp⟩
  · rintro ⟨hundef, before, after, happend, hbefore⟩
    exact ⟨before, after, happend, by simpa using hundef, fun p hp => by simpa using hbefore p hp⟩

theorem exists_leftmost {n : Node} (h : n.Awaits t) : ∃ i s, n.Leftmost t i s := by
  obtain ⟨i, s, hi, hundef⟩ := h
  cases hfind : n.identifiers.find? (fun (i, _) => t.lookup i = .undefined) with
  | some p => exact ⟨p.1, p.2, leftmost_iff.mpr hfind⟩
  | none =>
      rw [List.find?_eq_none] at hfind
      exact absurd (by simpa using hundef) (hfind (i, s) hi)

theorem leftmost_unique {n : Node} {i j : Identifier} {s u : Span} (h : n.Leftmost t i s)
    (h' : n.Leftmost t j u) : i = j ∧ s = u := by
  rw [leftmost_iff] at h h'
  rw [h] at h'
  cases h'
  exact ⟨rfl, rfl⟩

theorem firstUndefined_of_leftmost {n : Node} {i : Identifier} {s : Span}
    (h : n.Leftmost t i s) : n.firstUndefined t = .undefined i s := by
  rw [firstUndefined, leftmost_iff.mp h]

/-- What the two demands for a number give: a number, an error, or the name that is awaited. -/
theorem demands_cases (t : SymbolTable) (n : Node) :
    (∃ k, n.numberIn t = .ok k ∧ n.tryNumberIn t = .ok (some k)) ∨
    (∃ e, ¬ Unmet e ∧ n.numberIn t = .error e ∧ n.tryNumberIn t = .error e) ∨
    ∃ i s, n.Leftmost t i s ∧ n.numberIn t = .error (.undefined i s) ∧
      n.tryNumberIn t = .ok none := by
  unfold numberIn tryNumberIn
  cases hr : n.evaluate t with
  | error e => exact .inr (.inl ⟨e, not_unmet n hr, rfl, rfl⟩)
  | ok v =>
      cases v with
      | number k => exact .inl ⟨k, rfl, rfl⟩
      | boolean b => exact .inr (.inl ⟨.notNumber n.span, by simp [Unmet], rfl, rfl⟩)
      | undefined =>
          obtain ⟨i, s, hleft⟩ := exists_leftmost ((undefined_iff_awaits n hr).mp rfl)
          refine .inr (.inr ⟨i, s, hleft, ?_, rfl⟩)
          dsimp only
          rw [firstUndefined_of_leftmost hleft]

theorem numberIn_eq_ok_iff (n : Node) (v : Int64) :
    n.numberIn t = .ok v ↔ n.tryNumberIn t = .ok (some v) := by
  rcases demands_cases t n with ⟨k, h, h'⟩ | ⟨e, -, h, h'⟩ | ⟨i, s, -, h, h'⟩ <;> simp [h, h']

/-- Both demands fail with the same error, unless it is that of a name without a value. -/
theorem tryNumberIn_eq_error_iff (n : Node) (e : EvalError) :
    n.tryNumberIn t = .error e ↔ n.numberIn t = .error e ∧ ∀ i s, e ≠ .undefined i s := by
  rcases demands_cases t n with ⟨k, h, h'⟩ | ⟨e', hmet, h, h'⟩ | ⟨i, s, -, h, h'⟩
  · simp [h, h']
  · simp only [h, h', Except.error.injEq]
    constructor
    · rintro rfl
      exact ⟨rfl, fun i s he => hmet (.inl ⟨i, s, he⟩)⟩
    · exact And.left
  · simp only [h, h', Except.error.injEq, reduceCtorEq, false_iff, not_and]
    rintro rfl hne
    exact hne i s rfl

/-- The name that a demand fails for is the leftmost one without a value. -/
theorem numberIn_eq_undefined_iff (n : Node) (i : Identifier) (s : Span) :
    n.numberIn t = .error (.undefined i s) ↔ n.tryNumberIn t = .ok none ∧ n.Leftmost t i s := by
  rcases demands_cases t n with ⟨k, h, h'⟩ | ⟨e, hmet, h, h'⟩ | ⟨j, u, hleft, h, h'⟩
  · simp [h, h']
  · simp only [h, h', Except.error.injEq, reduceCtorEq, false_and, iff_false]
    rintro rfl
    exact hmet (.inl ⟨i, s, rfl⟩)
  · simp only [h, h', Except.error.injEq, EvalError.undefined.injEq, true_and]
    constructor
    · rintro ⟨rfl, rfl⟩
      exact hleft
    · exact leftmost_unique hleft

theorem tryNumberIn_eq_none_iff (n : Node) :
    n.tryNumberIn t = .ok none ↔
      ∃ i s, n.Leftmost t i s ∧ n.numberIn t = .error (.undefined i s) := by
  rcases demands_cases t n with ⟨k, h, h'⟩ | ⟨e, hmet, h, h'⟩ | ⟨i, s, hleft, h, h'⟩
  · simp [h, h']
  · simp only [h, h', Except.error.injEq, reduceCtorEq, false_iff, not_exists, not_and]
    rintro i s - rfl
    exact hmet (.inl ⟨i, s, rfl⟩)
  · simp only [h', true_iff]
    exact ⟨i, s, hleft, h⟩

theorem numberIn_ne_undefinedValue (n : Node) (s : Span) :
    n.numberIn t ≠ .error (.undefinedValue s) := by
  rcases demands_cases t n with ⟨k, h, -⟩ | ⟨e, hmet, h, -⟩ | ⟨i, u, -, h, -⟩
  · simp [h]
  · rw [h]
    rintro ⟨⟩
    exact hmet (.inr ⟨s, rfl⟩)
  · simp [h]

/-! ### Interpretation -/

/-- What the value of a tree in a table is. -/
structure Interpreted (t : SymbolTable) (n : Node) : Prop where
  /-- No operator in the tree meets operands that its cases do not cover. -/
  covered : n.evaluate? t = some (n.evaluate t)
  /-- A number or truth value is the one that the tree means. -/
  meaning : ∀ m, (∃ v, n.evaluate t = .ok v ∧ v.meaning? = some m) ↔ n.meaning? t = some m
  /-- Every operator needs the values of all its operands. -/
  strict : ∀ op ns s v, n = apply op ns s → n.evaluate t = .ok v →
    ∀ k ∈ ns, ∃ w, k.evaluate t = .ok w
  shift : ∀ op a b s x y, n = apply op [a, b] s → op = .shl ∨ op = .shr →
    a.evaluate t = .ok (.number x) → b.evaluate t = .ok (.number y) →
      ¬ (0 ≤ y.toInt ∧ y.toInt < 64) → n.evaluate t = .error (.shiftRange y s)
  quotient : ∀ op a b s x, n = apply op [a, b] s → op = .div ∨ op = .rem →
    a.evaluate t = .ok (.number x) → b.evaluate t = .ok (.number 0) →
      n.evaluate t = .error (.divisionByZero s)
  undefined : n.evaluate t = .ok .undefined ↔
    (∀ e, n.evaluate t ≠ .error e) ∧ ∃ i s, (i, s) ∈ n.identifiers ∧ t.lookup i = .undefined
  /-- The two demands for a number agree on numbers and on errors. -/
  number : ∀ v, n.numberIn t = .ok v ↔ n.tryNumberIn t = .ok (some v)
  error : ∀ e, n.tryNumberIn t = .error e ↔ n.numberIn t = .error e ∧ ∀ i s, e ≠ .undefined i s
  /-- They differ where a name has no value: the leftmost one is named. -/
  leftmost : ∀ i s, n.numberIn t = .error (.undefined i s) ↔
    n.tryNumberIn t = .ok none ∧ n.Leftmost t i s
  awaited : n.tryNumberIn t = .ok none ↔
    ∃ i s, n.Leftmost t i s ∧ n.numberIn t = .error (.undefined i s)
  named : ∀ s, n.numberIn t ≠ .error (.undefinedValue s)

theorem evaluate_binary {op : Operator} {a b : Node} {x y : Int64} (harity : op.arity = 2)
    (ha : a.evaluate t = .ok (.number x)) (hb : b.evaluate t = .ok (.number y)) (s : Span) :
    (apply op [a, b] s).evaluate t = op.apply s [.number x, .number y] :=
  evaluate_apply (.cons ha (.cons hb .nil)) harity.symm s

theorem evaluate_shift {op : Operator} {a b : Node} {x y : Int64} (hop : op = .shl ∨ op = .shr)
    (ha : a.evaluate t = .ok (.number x)) (hb : b.evaluate t = .ok (.number y))
    (hrange : ¬ (0 ≤ y.toInt ∧ y.toInt < 64)) (s : Span) :
    (apply op [a, b] s).evaluate t = .error (.shiftRange y s) := by
  have harity : op.arity = 2 := by rcases hop with rfl | rfl <;> rfl
  rw [← inShift_iff] at hrange
  rw [evaluate_binary harity ha hb]
  rcases hop with rfl | rfl <;>
    simp [Operator.apply, Operator.accepts, Operator.family, Value.family?, Operator.applied?,
      Operator.onNumbers?, hrange]

theorem evaluate_quotient {op : Operator} {a b : Node} {x : Int64} (hop : op = .div ∨ op = .rem)
    (ha : a.evaluate t = .ok (.number x)) (hb : b.evaluate t = .ok (.number 0)) (s : Span) :
    (apply op [a, b] s).evaluate t = .error (.divisionByZero s) := by
  have harity : op.arity = 2 := by rcases hop with rfl | rfl <;> rfl
  rw [evaluate_binary harity ha hb]
  rcases hop with rfl | rfl <;>
    simp [Operator.apply, Operator.accepts, Operator.family, Value.family?, Operator.applied?,
      Operator.onNumbers?]

/-- **The evaluator interprets every tree** in every table. -/
theorem evaluation_interprets (t : SymbolTable) (n : Node) : Interpreted t n where
  covered := evaluate?_eq n
  meaning m := (meaning?_eq_some n).symm
  strict op ns s v hn hv := by
    subst hn
    obtain ⟨vs, hvs, -⟩ := evaluate_apply_eq_ok hv
    exact exists_of_forall₂ hvs
  shift op a b s x y hn hop ha hb hrange := by
    subst hn
    exact evaluate_shift hop ha hb hrange s
  quotient op a b s x hn hop ha hb := by
    subst hn
    exact evaluate_quotient hop ha hb s
  undefined := evaluate_eq_undefined_iff n
  number := numberIn_eq_ok_iff n
  error := tryNumberIn_eq_error_iff n
  leftmost := numberIn_eq_undefined_iff n
  awaited := tryNumberIn_eq_none_iff n
  named := numberIn_ne_undefinedValue n

/-- The lowest number divided by `-1` wraps around, and the remainder is zero. -/
theorem evaluation_interprets_lowest :
    (∃ v, (apply .div [number (-0x8000000000000000) ⟨0, 1⟩, number (-1) ⟨4, 2⟩] ⟨0, 6⟩).evaluate
        .empty = .ok v ∧ v.meaning? = some (.number (-0x8000000000000000))) ∧
    ∃ v, (apply .rem [number (-0x8000000000000000) ⟨0, 1⟩, number (-1) ⟨4, 2⟩] ⟨0, 6⟩).evaluate
        .empty = .ok v ∧ v.meaning? = some (.number 0) :=
  ⟨((evaluation_interprets _ _).meaning _).mpr rfl, ((evaluation_interprets _ _).meaning _).mpr rfl⟩

end Chip8.Asm.Node
