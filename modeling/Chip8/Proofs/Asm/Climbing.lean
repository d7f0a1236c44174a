import Chip8.Proofs.Asm.Delivery
import Chip8.Proofs.Asm.Operands

/-! # Recursive descent and the stack

Expressions are read by recursive descent from a lexer (`Aliases.binary`), and with a stack of what
is open from the tokens of a line (`readFrom`). Both read the same.

* `Climbs` compares a reading from a lexer with what the stack does: the answer is a tree and the
  tokens left behind it, or both are refused.
* An operand is read in front of any stack, and then settled (`climbs_primary`, `climbs_unary`).
  Operators that bind at least as tightly as `floor` are read where no operator on the stack does
  (`Frame.Closed`); so the stack may be left out, and closing it later does the same
  (`readFrom_fold`).
* `follows_expression` is the whole expression. -/

namespace Chip8.Asm

open Reading (Follows)

/-! ### The stack -/

namespace Frame

/-- Nothing on top waits for an operand, or binds at least as tightly as `floor`. -/
def Closed (floor : Nat) : List Frame → Prop
  | prefixed _ _ :: _ => False
  | binary op _ :: _ => ∀ strength, op.precedence = some strength → strength < floor
  | _ => True

variable {floor : Nat} {frames : List Frame}

theorem closed_paren (floor : Nat) (s : Span) (frames : List Frame) :
    Closed floor (paren s :: frames) := trivial

theorem closed_binary {op : Operator} {strength : Nat} (hop : op.precedence = some strength)
    (left : Node) (frames : List Frame) : Closed (strength + 1) (binary op left :: frames) := by
  intro k hk
  rw [hop] at hk
  cases hk
  exact Nat.lt_succ_self strength

theorem closed_mono {floor' : Nat} (h : Closed floor frames) (hle : floor ≤ floor') :
    Closed floor' frames := by
  cases frames with
  | nil => trivial
  | cons frame frames =>
      cases frame with
      | prefixed op s => exact h
      | paren s => trivial
      | binary op left => exact fun strength hop => Nat.lt_of_lt_of_le (h strength hop) hle

theorem settle_of_closed (h : Closed floor frames) (n : Node) : settle frames n = (frames, n) := by
  cases frames with
  | nil => rfl
  | cons frame frames =>
      cases frame with
      | prefixed op s => exact h.elim
      | paren s => rfl
      | binary op left => rfl

theorem close_of_closed (h : Closed floor frames) (n : Node) :
    close floor frames n = (frames, n) := by
  cases frames with
  | nil => rfl
  | cons frame frames =>
      cases frame with
      | prefixed op s => exact h.elim
      | paren s => rfl
      | binary op left =>
          rw [close]
          refine if_neg ?_
          cases hop : op.precedence with
          | none => exact Bool.false_ne_true
          | some strength =>
              rw [Option.any_some, decide_eq_true_iff]
              exact Nat.not_le.mpr (h strength hop)

/-- An operator on top is applied if what follows binds no tighter. -/
theorem close_fold {op : Operator} {strength : Nat} (hop : op.precedence = some strength)
    (hle : floor ≤ strength) (left right : Node) (frames : List Frame) :
    close floor (binary op left :: frames) right =
      close floor frames (.apply op [left, right] (left.span.join right.span)) := by
  rw [close, hop, Option.any_some, if_pos (decide_eq_true hle)]

end Frame

namespace Reader

variable {aliases : Aliases} {floor strength : Nat} {t : Token} {op : Operator}

theorem binding?_eq_some (h : binding? floor t = some (op, strength)) :
    t.kind = .operator op ∧ op.precedence = some strength ∧ floor ≤ strength := by
  unfold binding? at h
  split at h
  · rename_i op' hkind
    obtain ⟨strength', hfilter, hpair⟩ := Option.map_eq_some_iff.mp h
    obtain ⟨hop, hle⟩ := Option.filter_eq_some_iff.mp hfilter
    cases hpair
    exact ⟨hkind, hop, of_decide_eq_true hle⟩
  · cases h

theorem lt_of_binding?_eq_none (h : binding? floor t = none) (hkind : t.kind = .operator op)
    (hop : op.precedence = some strength) : strength < floor := by
  unfold binding? at h
  rw [hkind] at h
  dsimp only at h
  rw [hop, Option.map_eq_none_iff, Option.filter_eq_none_iff] at h
  exact Nat.not_le.mp (fun hle => h strength rfl (decide_eq_true hle))

variable {stop : Token} {frames : List Frame} {left right n : Node} {ts : List Token}

/-- Closing an operator on top before reading on makes no difference, if what follows binds no
tighter. -/
theorem readFrom_fold (hop : op.precedence = some strength)
    (hnone : binding? (strength + 1) (ts.head?.getD stop) = none) :
    readFrom aliases stop (.binary op left :: frames) (some right) ts =
      readFrom aliases stop frames
        (some (.apply op [left, right] (left.span.join right.span))) ts := by
  have hclose := Frame.close_fold hop (Nat.zero_le strength) left right frames
  have hfinish : finish (.binary op left :: frames) right =
      finish frames (.apply op [left, right] (left.span.join right.span)) := by
    rw [finish, finish, hclose]
  cases ts with
  | nil => rw [readFrom, readFrom, hfinish]
  | cons t ts =>
      have hgo : continueWith (.binary op left :: frames) right t =
          continueWith frames (.apply op [left, right] (left.span.join right.span)) t := by
        unfold continueWith
        cases hkind : t.kind with
        | operator op' =>
            dsimp only
            cases hop' : op'.precedence with
            | none => exact hfinish
            | some strength' =>
                have hle := Nat.le_of_lt_succ (lt_of_binding?_eq_none hnone hkind hop')
                dsimp only
                rw [Frame.close_fold hop hle]
        | parenClose =>
            dsimp only
            rw [hclose]
        | _ => exact hfinish
      rw [readFrom, readFrom, hgo]

/-- A token that is no operator between operands, and closes nothing, ends an expression. -/
theorem continueWith_of_binding?_eq_none (hnone : binding? 1 t = none)
    (hclose : t.kind ≠ .parenClose) : continueWith frames n t = finish frames n := by
  unfold continueWith
  cases hkind : t.kind with
  | operator op =>
      dsimp only
      cases hop : op.precedence with
      | none => rfl
      | some strength =>
          have hlt := lt_of_binding?_eq_none hnone hkind hop
          have hpos : ∀ k, op.precedence = some k → 1 ≤ k := by
            cases op <;> simp [Operator.precedence]
          exact absurd (hpos strength hop) (Nat.not_le.mpr hlt)
  | parenClose => exact absurd hkind hclose
  | _ => rfl

theorem readFrom_end (hnone : binding? 1 (ts.head?.getD stop) = none) :
    readFrom aliases stop [] (some n) ts = .ok (n, ts) := by
  cases ts with
  | nil => rfl
  | cons t ts =>
      have hgo : continueWith [] n t = .done n := by
        by_cases hclose : t.kind = .parenClose
        · rw [continueWith, hclose]
          rfl
        · exact continueWith_of_binding?_eq_none hnone hclose
      rw [readFrom, hgo]

theorem readFrom_unclosed {s : Span} (hhead : ts.head?.getD stop = t)
    (hnone : binding? 1 t = none) (hclose : t.kind ≠ .parenClose) :
    readFrom aliases stop (.paren s :: frames) (some n) ts = .error (.unexpected t "`)`") := by
  subst hhead
  cases ts with
  | nil => rfl
  | cons t ts =>
      have hgo : continueWith (.paren s :: frames) n t = .unclosed :=
        continueWith_of_binding?_eq_none hnone hclose
      rw [readFrom, hgo]
      rfl

theorem readFrom_closed {s : Span} (hkind : t.kind = .parenClose) :
    readFrom aliases stop (.paren s :: frames) (some n) (t :: ts) =
      readFrom aliases stop (Frame.settle frames (n.withSpan (s.join t.span))).1
        (some (Frame.settle frames (n.withSpan (s.join t.span))).2) ts := by
  refine readFrom_operator ?_ stop ts
  rw [continueWith, hkind]
  rfl

/-! ### Side by side -/

variable {e a l m : Lexer}

/-- A reading of a tree in front of the tokens `ts`: with `T` of the tree and of the tokens left
behind it, or with `D` of the diagnostic. -/
inductive Climbs (e : Lexer) (stop : Token) (a : Lexer) (ts : List Token)
    (D : Diagnostic → Prop) (T : Node → List Token → Prop) :
    Option (Except Diagnostic Node × Lexer) → Prop
  | tree {n : Node} {rest : List Token} {l : Lexer} (ahead : Ahead stop a rest l)
      (suffix : rest <:+ ts) (holds : T n rest) : Climbs e stop a ts D T (some (.ok n, l))
  | refused {d : Diagnostic} {l : Lexer} (recovers : Recovers e l) (holds : D d) :
      Climbs e stop a ts D T (some (.error d, l))

/-- The stack reads an operand and settles it. -/
def OperandClimbs (aliases : Aliases) (e : Lexer) (stop : Token) (a : Lexer) (ts : List Token) :
    Option (Except Diagnostic Node × Lexer) → Prop :=
  Climbs e stop a ts (fun d => ∀ frames, readFrom aliases stop frames none ts = .error d)
    fun n rest => rest.length < ts.length ∧ ∀ frames,
      readFrom aliases stop frames none ts =
        readFrom aliases stop (Frame.settle frames n).1 (some (Frame.settle frames n).2) rest

/-- The stack reads on up to an operator that binds less tightly than `floor`, from `operand`. -/
def OperatorsClimb (aliases : Aliases) (e : Lexer) (stop : Token) (a : Lexer) (floor : Nat)
    (operand : Option Node) (ts : List Token) : Option (Except Diagnostic Node × Lexer) → Prop :=
  Climbs e stop a ts
    (fun d => ∀ frames, Frame.Closed floor frames →
      readFrom aliases stop frames operand ts = .error d)
    fun n rest => binding? floor (rest.head?.getD stop) = none ∧ ∀ frames,
      Frame.Closed floor frames →
        readFrom aliases stop frames operand ts = readFrom aliases stop frames (some n) rest

/-- Operands and operators are read alike in front of fewer than `size` tokens. -/
def ClimbsBelow (aliases : Aliases) (e : Lexer) (stop : Token) (a : Lexer) (size : Nat) : Prop :=
  ∀ {ts : List Token} {t : Token} {l : Lexer} (floor : Nat), ts.length < size →
    Taken stop a ts t l →
      OperatorsClimb aliases e stop a floor none ts ((aliases.binary floor t).outcome l)

theorem climbs_refuse (hedge : Edge e stop a) (htaken : Taken stop a ts t l)
    (h : ∀ frames, readFrom aliases stop frames none ts = .error (.unexpected t "an operand")) :
    OperandClimbs aliases e stop a ts ((refuse t "an operand").outcome l) := by
  rw [outcome_refuse]
  exact .refused (htaken.recovers_refused hedge) h

/-- A token that is an operand of its own, or is refused. -/
theorem climbs_of_operandStart (hedge : Edge e stop a) (hrest : Ahead stop a ts l)
    {x : Except Diagnostic Node} (hstart : operandStart aliases t = x.map .inr) :
    OperandClimbs aliases e stop a (t :: ts) (some (x, l)) := by
  cases x with
  | error d => exact .refused (hrest.recovers hedge) fun frames => readFrom_refused hstart _ _ _
  | ok n =>
      exact .tree hrest (List.suffix_cons t ts)
        ⟨Nat.lt_succ_self _, fun frames => readFrom_starts hstart _ _ _⟩

/-- An expression in parentheses. The parenthesis on the stack keeps what is inside apart. -/
theorem climbs_paren (hedge : Edge e stop a)
    (hbelow : ClimbsBelow aliases e stop a (ts.length + 1)) (hrest : Ahead stop a ts l)
    (hkind : t.kind = .parenOpen) :
    OperandClimbs aliases e stop a (t :: ts) ((aliases.primary t).outcome l) := by
  have hopens : ∀ frames, readFrom aliases stop frames none (t :: ts) =
      readFrom aliases stop (.paren t.span :: frames) none ts := fun frames =>
    readFrom_opens (by rw [operandStart, hkind]) stop frames ts
  obtain ⟨first, m, hnext, -, htaken⟩ := hrest.take
  rw [Aliases.primary, hkind]
  dsimp only
  rw [outcome_next_bind hnext]
  have hinner := hbelow 1 (Nat.lt_succ_self _) htaken
  generalize hbinary : (aliases.binary 1 first).outcome m = x at hinner
  cases hinner with
  | refused hrecovers hrefused =>
      rw [Reading.outcome_bind_error hbinary]
      refine .refused hrecovers fun frames => ?_
      rw [hopens, hrefused _ (Frame.closed_paren _ _ _)]
  | @tree n rest m' hahead hsuffix hn =>
      obtain ⟨hnone, hreads⟩ := hn
      rw [Reading.outcome_bind_ok hbinary]
      obtain ⟨close, m'', hnext', -, htaken'⟩ := hahead.take
      rw [htaken'.head] at hnone
      have hdemand := outcome_demand hnext' .parenClose "`)`"
      by_cases hclose : close.kind = .parenClose
      · rw [if_pos hclose] at hdemand
        obtain ⟨rest', rfl, hahead'⟩ := htaken'.of_kind hedge hclose (by decide) rfl
        rw [Reading.outcome_bind_ok hdemand]
        refine .tree hahead' ?_ ⟨?_, fun frames => ?_⟩
        · exact (List.suffix_cons close rest').trans (hsuffix.trans (List.suffix_cons t ts))
        · have hlength := hsuffix.length_le
          rw [List.length_cons] at hlength ⊢
          omega
        · rw [hopens, hreads _ (Frame.closed_paren _ _ _), readFrom_closed hclose]
      · rw [if_neg hclose] at hdemand
        rw [Reading.outcome_bind_error hdemand]
        refine .refused (htaken'.recovers_refused hedge) fun frames => ?_
        rw [hopens, hreads _ (Frame.closed_paren _ _ _),
          readFrom_unclosed htaken'.head hnone hclose]

theorem leading?_eq_some (h : leading? t = some op) :
    ∃ op', t.kind = .operator op' ∧ op'.asPrefix = some op := by
  unfold leading? at h
  split at h
  · rename_i op' hkind
    exact ⟨op', hkind, h⟩
  · cases h

theorem primary_of_edge (hedge : Edge e t a) : aliases.primary t = refuse t "an operand" := by
  rw [Aliases.primary]
  rcases hedge.kind with hkind | hkind
  · rw [hkind]
  · cases h : t.kind <;> first | rfl | (rw [h] at hkind; cases hkind)

/-- Numbers and names are read at once, or refused behind the token, as registers are. -/
theorem outcome_primary_leaf (aliases : Aliases) (l : Lexer)
    (hleaf : (∃ base, t.kind = .number base) ∨ t.kind = .name ∨ ∃ r, t.kind = .register r) :
    ∃ x, operandStart aliases t = x.map .inr ∧ (aliases.primary t).outcome l = some (x, l) := by
  rcases hleaf with ⟨base, hkind⟩ | hkind | ⟨r, hkind⟩
  · refine ⟨(numberOf base t).map (.number · t.span), ?_, ?_⟩
    · rw [operandStart, hkind]
      dsimp only
      cases numberOf base t <;> rfl
    · rw [Aliases.primary, hkind]
      dsimp only
      cases numberOf base t <;> rfl
  · refine ⟨nameOf aliases t, by rw [operandStart, hkind], ?_⟩
    rw [Aliases.primary, hkind]
    exact Reading.outcome_ofExcept _ l
  · refine ⟨.error ⟨.registerInExpression, t.span⟩, by rw [operandStart, hkind]; rfl, ?_⟩
    rw [Aliases.primary, hkind]
    rfl

theorem climbs_primary (hedge : Edge e stop a)
    (hbelow : ClimbsBelow aliases e stop a ts.length) (htaken : Taken stop a ts t l)
    (hleading : leading? t = none) :
    OperandClimbs aliases e stop a ts ((aliases.primary t).outcome l) := by
  cases htaken with
  | done =>
      rw [primary_of_edge hedge]
      exact climbs_refuse hedge .done fun _ => rfl
  | @token t ts l hcode hrest =>
      have hrefused : operandStart aliases t = .error (.unexpected t "an operand") →
          aliases.primary t = refuse t "an operand" →
          OperandClimbs aliases e stop a (t :: ts) ((aliases.primary t).outcome l) := by
        intro hstart hrefuse
        rw [hrefuse]
        exact climbs_refuse hedge (.token hcode hrest) fun frames =>
          readFrom_refused hstart stop frames ts
      have hleaf : (∃ base, t.kind = .number base) ∨ t.kind = .name ∨ (∃ r, t.kind = .register r) →
          OperandClimbs aliases e stop a (t :: ts) ((aliases.primary t).outcome l) := by
        intro hleaf
        obtain ⟨x, hstart, houtcome⟩ := outcome_primary_leaf aliases l hleaf
        rw [houtcome]
        exact climbs_of_operandStart hedge hrest hstart
      cases hkind : t.kind with
      | number base => exact hleaf (Or.inl ⟨base, hkind⟩)
      | name => exact hleaf (Or.inr (Or.inl hkind))
      | register r => exact hleaf (Or.inr (Or.inr ⟨r, hkind⟩))
      | parenOpen => exact climbs_paren hedge hbelow hrest hkind
      | operator op =>
          rw [leading?, hkind] at hleading
          dsimp only at hleading
          refine hrefused ?_ (by rw [Aliases.primary, hkind])
          rw [operandStart, hkind]
          dsimp only
          rw [hleading]
      | _ => exact hrefused (by rw [operandStart, hkind]) (by rw [Aliases.primary, hkind])

/-- An operator in front waits on the stack for its operand, and is applied to it at once. -/
theorem climbs_leading (hleading : leading? t = some op) (hrest : Ahead stop a ts l)
    (hoperand : ∀ {u : Token} {m : Lexer}, Taken stop a ts u m →
      OperandClimbs aliases e stop a ts ((aliases.unary u).outcome m)) :
    OperandClimbs aliases e stop a (t :: ts) ((aliases.unary t).outcome l) := by
  obtain ⟨op', hkind, hop⟩ := leading?_eq_some hleading
  have hopens : ∀ frames, readFrom aliases stop frames none (t :: ts) =
      readFrom aliases stop (.prefixed op t.span :: frames) none ts := fun frames =>
    readFrom_opens (by rw [operandStart, hkind]; dsimp only; rw [hop]) stop frames ts
  obtain ⟨next, m, hnext, -, htaken⟩ := hrest.take
  have hclimbs := hoperand htaken
  rw [Aliases.unary, hleading]
  dsimp only
  rw [outcome_next_bind hnext]
  generalize hunary : (aliases.unary next).outcome m = x at hclimbs
  cases hclimbs with
  | refused hrecovers hrefused =>
      rw [Reading.outcome_bind_error hunary]
      refine .refused hrecovers fun frames => ?_
      rw [hopens, hrefused]
  | @tree n rest m' hahead hsuffix hn =>
      obtain ⟨hlength, hreads⟩ := hn
      rw [Reading.outcome_bind_ok hunary]
      refine .tree hahead (hsuffix.trans (List.suffix_cons t ts))
        ⟨Nat.lt_succ_of_lt hlength, fun frames => ?_⟩
      rw [hopens, hreads]
      rfl

/-- The induction is on the tokens: one operator in front is taken at a time. -/
theorem climbs_unary (hedge : Edge e stop a)
    (hbelow : ClimbsBelow aliases e stop a ts.length) (htaken : Taken stop a ts t l) :
    OperandClimbs aliases e stop a ts ((aliases.unary t).outcome l) := by
  induction ts generalizing t l with
  | nil =>
      have hleading : leading? t = none := by
        cases h : leading? t with
        | none => rfl
        | some op =>
            obtain ⟨op', hkind, -⟩ := leading?_eq_some h
            obtain ⟨us, hus, -⟩ := htaken.of_kind hedge hkind TokenKind.noConfusion rfl
            cases hus
      rw [Aliases.unary, hleading]
      exact climbs_primary hedge hbelow htaken hleading
  | cons u us ih =>
      cases hleading : leading? t with
      | none =>
          rw [Aliases.unary, hleading]
          exact climbs_primary hedge hbelow htaken hleading
      | some op =>
          cases htaken with
          | token hcode hrest =>
              exact climbs_leading hleading hrest fun htaken' =>
                ih (fun floor hlt => hbelow floor (Nat.lt_succ_of_lt hlt)) htaken'

theorem Climbs.imp {us : List Token} {D D' : Diagnostic → Prop}
    {T T' : Node → List Token → Prop} {x : Option (Except Diagnostic Node × Lexer)}
    (h : Climbs e stop a us D T x) (hsuffix : us <:+ ts) (hd : ∀ d, D d → D' d)
    (ht : ∀ n rest, T n rest → T' n rest) : Climbs e stop a ts D' T' x := by
  cases h with
  | tree hahead hrest hn => exact .tree hahead (hrest.trans hsuffix) (ht _ _ hn)
  | refused hrecovers hrefused => exact .refused hrecovers (hd _ hrefused)

/-- An operator that binds at least as tightly as `floor` waits on the stack for its right operand:
nothing there is closed by it. -/
theorem readFrom_waits {us : List Token} (hbinds : binding? floor t = some (op, strength))
    (hframes : Frame.Closed floor frames) :
    readFrom aliases stop frames (some left) (t :: us) =
      readFrom aliases stop (.binary op left :: frames) none us := by
  obtain ⟨hkind, hop, hle⟩ := binding?_eq_some hbinds
  refine readFrom_operand ?_ stop us
  rw [continueWith, hkind]
  dsimp only
  rw [hop]
  dsimp only
  rw [Frame.close_of_closed (Frame.closed_mono hframes hle)]

/-- An operator with its right operand makes a greater left operand. -/
theorem readFrom_right {us rest : List Token} (hbinds : binding? floor t = some (op, strength))
    (hframes : Frame.Closed floor frames)
    (hnone : binding? (strength + 1) (rest.head?.getD stop) = none)
    (hreads : ∀ frames, Frame.Closed (strength + 1) frames →
      readFrom aliases stop frames none us = readFrom aliases stop frames (some right) rest) :
    readFrom aliases stop frames (some left) (t :: us) =
      readFrom aliases stop frames
        (some (.apply op [left, right] (left.span.join right.span))) rest := by
  obtain ⟨-, hop, -⟩ := binding?_eq_some hbinds
  rw [readFrom_waits hbinds hframes, hreads _ (Frame.closed_binary hop left frames),
    readFrom_fold hop hnone]

/-- The induction is on the number of tokens: an operator and its right operand are taken at a time,
and the left operand grows. -/
theorem climbs_binaryRest (hedge : Edge e stop a) {size : Nat}
    (hbelow : ClimbsBelow aliases e stop a size) (hsize : ts.length ≤ size)
    (hahead : Ahead stop a ts l) :
    OperatorsClimb aliases e stop a floor (some left) ts
      ((aliases.binaryRest floor left).outcome l) := by
  induction hlength : ts.length using Nat.strongRecOn generalizing ts l left with
  | _ length ih =>
      obtain ⟨t, m, hnext, hm, htaken⟩ := hahead.take
      rw [Aliases.binaryRest, outcome_next_bind hnext]
      cases hbinds : binding? floor t with
      | none =>
          refine .tree (htaken.putBack hm) List.suffix_rfl ⟨?_, fun _ _ => rfl⟩
          rw [htaken.head]
          exact hbinds
      | some binding =>
          obtain ⟨op, strength⟩ := binding
          obtain ⟨hkind, hop, -⟩ := binding?_eq_some hbinds
          obtain ⟨us, rfl, hrest⟩ := htaken.of_kind hedge hkind TokenKind.noConfusion rfl
          obtain ⟨first, m', hnext', -, htaken'⟩ := hrest.take
          have hright := hbelow (strength + 1) hsize htaken'
          dsimp only
          rw [outcome_next_bind hnext']
          generalize hbinary : (aliases.binary (strength + 1) first).outcome m' = x at hright
          cases hright with
          | refused hrecovers hrefused =>
              rw [Reading.outcome_bind_error hbinary]
              refine .refused hrecovers fun frames hframes => ?_
              rw [readFrom_waits hbinds hframes]
              exact hrefused _ (Frame.closed_binary hop left frames)
          | @tree right rest m'' hahead' hsuffix hn =>
              obtain ⟨hnone, hreads⟩ := hn
              rw [Reading.outcome_bind_ok hbinary]
              have hle := hsuffix.length_le
              rw [List.length_cons] at hlength hsize
              have hmore : OperatorsClimb aliases e stop a floor
                  (some (.apply op [left, right] (left.span.join right.span))) rest _ :=
                ih rest.length (by omega) (by omega) hahead' rfl
              refine hmore.imp (hsuffix.trans (List.suffix_cons t us)) ?_ ?_
              · intro d hrefused frames hframes
                rw [readFrom_right hbinds hframes hnone hreads, hrefused frames hframes]
              · rintro n rest' ⟨hnone', hreads'⟩
                refine ⟨hnone', fun frames hframes => ?_⟩
                rw [readFrom_right hbinds hframes hnone hreads, hreads' frames hframes]

/-- **The lexer is read like the stack reads the tokens**, in front of any number of them. -/
theorem climbsBelow (hedge : Edge e stop a) (size : Nat) : ClimbsBelow aliases e stop a size := by
  induction size with
  | zero => exact fun floor hlt => absurd hlt (Nat.not_lt_zero _)
  | succ size ih =>
      intro ts t l floor hlt htaken
      have hle := Nat.le_of_lt_succ hlt
      have hunary := climbs_unary hedge
        (fun floor hlt' => ih floor (Nat.lt_of_lt_of_le hlt' hle)) htaken
      rw [Aliases.binary]
      generalize houtcome : (aliases.unary t).outcome l = x at hunary
      cases hunary with
      | refused hrecovers hrefused =>
          rw [Reading.outcome_bind_error houtcome]
          exact .refused hrecovers fun frames _ => hrefused frames
      | @tree n rest m hahead hsuffix hn =>
          obtain ⟨hlength, hreads⟩ := hn
          rw [Reading.outcome_bind_ok houtcome]
          have hsettles : ∀ frames, Frame.Closed floor frames →
              readFrom aliases stop frames none ts =
                readFrom aliases stop frames (some n) rest := by
            intro frames hframes
            rw [hreads, Frame.settle_of_closed hframes]
          refine (climbs_binaryRest hedge ih (by omega) hahead).imp hsuffix ?_ ?_
          · intro d hrefused frames hframes
            rw [hsettles frames hframes, hrefused frames hframes]
          · rintro k rest' ⟨hnone, hreads'⟩
            refine ⟨hnone, fun frames hframes => ?_⟩
            rw [hsettles frames hframes, hreads' frames hframes]

/-- A tree and the tokens behind it, left in front of the lexer. -/
def TreeRead (stop : Token) (a : Lexer) (ts : List Token) (x : Node × List Token) (n : Node)
    (l : Lexer) : Prop :=
  x.1 = n ∧ Ahead stop a x.2 l ∧ x.2 <:+ ts

/-- **Recursive descent reads expressions as the stack does.** -/
theorem follows_expression (aliases : Aliases) (hedge : Edge e stop a)
    (htaken : Taken stop a ts t l) :
    Follows (Recovers e) (TreeRead stop a ts) (readExpression aliases stop ts)
      ((expression aliases t).outcome l) := by
  have hbelow : ClimbsBelow aliases e stop a (ts.length + 1) := climbsBelow hedge (ts.length + 1)
  have h := hbelow 1 (Nat.lt_succ_self _) htaken
  unfold readExpression expression
  generalize (aliases.binary 1 t).outcome l = x at h
  cases h with
  | refused hrecovers hrefused =>
      rw [hrefused [] trivial]
      exact .error hrecovers
  | tree hahead hsuffix hn =>
      rw [hn.2 [] trivial, readFrom_end hn.1]
      exact .ok ⟨rfl, hahead, hsuffix⟩

end Reader

end Chip8.Asm
