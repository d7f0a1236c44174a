import Chip8.Asm.Program
import Chip8.Proofs.Asm.AlikeReading

/-! # Alike sources assemble alike

What both passes of the assembler make of statements that are alike.

* **Values.** Trees that are alike have the same value in tables that are alike, or neither has one.
  Reasons do not matter here, but how much they weigh does (`SameWeight`).
* **Passes.** One lemma for each step of `Layout` and of `Output`, then the induction over the
  statements. Statements that say nothing but a comment do not count (`Statement.saysCode`).
* `like_assemble` is the whole: source texts with alike lines give alike programs or none. -/

namespace Chip8.Asm

variable {L : Likeness}

/-! ### Values -/

/-- Two results that are equal if they are there. -/
abbrev SameValue {α ε : Type} (x x' : Except ε α) : Prop := Together (fun _ _ => True) Eq x x'

namespace Operator

theorem sameValue_onNumbers? (op : Operator) (a b : Int64) (span span' : Span) :
    Option.Rel SameValue (op.onNumbers? a b span) (op.onNumbers? a b span') := by
  have hshift : ∀ v : Int64,
      SameValue (if 0 ≤ b ∧ b < 64 then .ok (.number v) else .error (EvalError.shiftRange b span))
        (if 0 ≤ b ∧ b < 64 then .ok (Value.number v)
          else .error (EvalError.shiftRange b span')) := by
    intro v
    split
    · exact .ok rfl
    · exact .error trivial
  have hdivide : ∀ v : Int64,
      SameValue (if b = 0 then .error (EvalError.divisionByZero span) else .ok (.number v))
        (if b = 0 then .error (EvalError.divisionByZero span') else .ok (Value.number v)) := by
    intro v
    split
    · exact .error trivial
    · exact .ok rfl
  cases op with
  | shl | shr => exact .some (hshift _)
  | div | rem => exact .some (hdivide _)
  | logicalOr | logicalAnd | neg | complement | not => exact .none
  | _ => exact .some (.ok rfl)

theorem sameValue_applied? (op : Operator) (span span' : Span) (values : List Value) :
    Option.Rel SameValue (op.applied? span values) (op.applied? span' values) := by
  have hsame : ∀ x : Option (Except EvalError Value), Option.Rel SameValue x x := by
    intro x
    cases x with
    | none => exact .none
    | some r =>
        cases r with
        | ok v => exact .some (.ok rfl)
        | error e => exact .some (.error trivial)
  unfold applied?
  split
  · exact hsame _
  · exact hsame _
  · exact op.sameValue_onNumbers? _ _ span span'
  · exact hsame _
  · exact .none

theorem sameValue_apply (op : Operator) (span span' : Span) (values : List Value) :
    SameValue (op.apply span values) (op.apply span' values) := by
  unfold apply
  split
  · split
    · exact .ok rfl
    · have h := op.sameValue_applied? span span' values
      generalize op.applied? span values = x at h
      generalize op.applied? span' values = x' at h
      cases h with
      | none => exact .ok rfl
      | some h => exact h
  · exact .error trivial

end Operator

variable {T T' : SymbolTable}

theorem SymbolTable.Like.lookup (hT : T.Like L T') {i i' : Identifier} (hi : L.name i i') :
    T.lookup i = T'.lookup i' := by
  have hget := hT.get? hi
  unfold SymbolTable.lookup
  generalize T.get? i = x at hget
  generalize T'.get? i' = x' at hget
  cases hget with
  | none => rfl
  | some hs =>
      dsimp only
      rw [hs.value]

namespace Node

mutual

/-- Trees that are alike have one value. -/
theorem Like.evaluate (hT : T.Like L T') :
    ∀ (n : Node) {n' : Node}, n.Like L n' → SameValue (n.evaluate T) (n'.evaluate T')
  | .number .., _, h => by
      cases h with
      | number => exact .ok rfl
  | .register .., _, h => by
      cases h with
      | register => exact .error trivial
  | .keyword .., _, h => by
      cases h with
      | keyword => exact .error trivial
  | .name .., _, h => by
      cases h with
      | name hname =>
          rw [Node.evaluate, Node.evaluate, ← hT.lookup hname]
          split
          · exact .ok rfl
          · exact .ok rfl
          · exact .error trivial
  | .apply op ns _, _, h => by
      cases h with
      | apply hns =>
          rw [Node.evaluate, Node.evaluate, ← hns.length_eq]
          split
          · rcases (Like.evaluateAll hT ns hns).results with
              ⟨vs, vs', hvs, hvs', rfl⟩ | ⟨e, e', he, he', -⟩
            · rw [hvs, hvs']
              exact op.sameValue_apply _ _ vs
            · rw [he, he']
              exact .error trivial
          · exact .error trivial

theorem Like.evaluateAll (hT : T.Like L T') :
    ∀ (ns : List Node) {ns' : List Node}, List.Forall₂ (Node.Like L) ns ns' →
      SameValue (Node.evaluateAll T ns) (Node.evaluateAll T' ns')
  | [], _, h => by
      cases h with
      | nil => exact .ok rfl
  | n :: ns, _, h => by
      cases h with
      | cons hn hns =>
          rw [Node.evaluateAll, Node.evaluateAll]
          rcases (Like.evaluate hT n hn).results with ⟨v, v', hv, hv', rfl⟩ | ⟨e, e', he, he', -⟩
          · rw [hv, hv']
            rcases (Like.evaluateAll hT ns hns).results with
              ⟨vs, vs', hvs, hvs', rfl⟩ | ⟨e, e', he, he', -⟩
            · rw [hvs, hvs']
              exact .ok rfl
            · rw [he, he']
              exact .error trivial
          · rw [he, he']
            exact .error trivial

end

variable {n n' : Node}

theorem Like.numberIn (hT : T.Like L T') (h : n.Like L n') :
    SameValue (n.numberIn T) (n'.numberIn T') := by
  unfold Node.numberIn
  rcases (Like.evaluate hT n h).results with ⟨v, v', hv, hv', rfl⟩ | ⟨e, e', he, he', -⟩
  · rw [hv, hv']
    cases v with
    | number v => exact .ok rfl
    | boolean b => exact .error trivial
    | undefined => exact .error trivial
  · rw [he, he']
    exact .error trivial

theorem Like.tryNumberIn (hT : T.Like L T') (h : n.Like L n') :
    SameValue (n.tryNumberIn T) (n'.tryNumberIn T') := by
  unfold Node.tryNumberIn
  rcases (Like.evaluate hT n h).results with ⟨v, v', hv, hv', rfl⟩ | ⟨e, e', he, he', -⟩
  · rw [hv, hv']
    cases v with
    | number v => exact .ok rfl
    | boolean b => exact .error trivial
    | undefined => exact .ok rfl
  · rw [he, he']
    exact .error trivial

mutual

theorem Like.identifiers : ∀ (n : Node) {n' : Node}, n.Like L n' →
    List.Forall₂ L.name (n.identifiers.map Prod.fst) (n'.identifiers.map Prod.fst)
  | .number .., _, h => by
      cases h with
      | number => exact .nil
  | .register .., _, h => by
      cases h with
      | register => exact .nil
  | .keyword .., _, h => by
      cases h with
      | keyword => exact .nil
  | .name .., _, h => by
      cases h with
      | name hname => exact .cons hname .nil
  | .apply _ ns _, _, h => by
      cases h with
      | apply hns => exact Like.identifiersOfAll ns hns

theorem Like.identifiersOfAll : ∀ (ns : List Node) {ns' : List Node},
    List.Forall₂ (Node.Like L) ns ns' →
    List.Forall₂ L.name ((Node.identifiersOfAll ns).map Prod.fst)
      ((Node.identifiersOfAll ns').map Prod.fst)
  | [], _, h => by
      cases h with
      | nil => exact .nil
  | n :: ns, _, h => by
      cases h with
      | cons hn hns =>
          rw [Node.identifiersOfAll, Node.identifiersOfAll, List.map_append, List.map_append]
          exact List.rel_append (Like.identifiers n hn) (Like.identifiersOfAll ns hns)

end

end Node

/-! ### Weights -/

/-- As many diagnostics of the same severities. -/
def SameWeight (ds ds' : List Diagnostic) : Prop :=
  ds.map Diagnostic.severity = ds'.map Diagnostic.severity

namespace SameWeight

variable {ds ds' es es' : List Diagnostic}

theorem nil : SameWeight [] [] := rfl

theorem single {d d' : Diagnostic} (h : d.severity = d'.severity) : SameWeight [d] [d'] :=
  congrArg (fun s => [s]) h

theorem append (h : SameWeight ds ds') (h' : SameWeight es es') :
    SameWeight (ds ++ es) (ds' ++ es') := by
  unfold SameWeight
  rw [List.map_append, List.map_append, h, h']

theorem isEmpty (h : SameWeight ds ds') : ds.isEmpty = ds'.isEmpty := by
  rw [← List.isEmpty_map (f := Diagnostic.severity), h, List.isEmpty_map]

theorem hasErrors (h : SameWeight ds ds') : Asm.hasErrors ds = Asm.hasErrors ds' := by
  have hany : ∀ es : List Diagnostic,
      Asm.hasErrors es = (es.map Diagnostic.severity).any (· = .error) := fun es => by
    rw [List.any_map]
    rfl
  rw [hany, hany, h]

theorem of_like (h : List.Forall₂ (Diagnostic.Like L) ds ds') : SameWeight ds ds' := by
  induction h with
  | nil => exact nil
  | cons hd _ ih =>
      have herrors := hd.isError
      exact append (single ((of_decide_eq_true herrors.1).trans
        (of_decide_eq_true herrors.2).symm)) ih

end SameWeight

/-- Both results are there and equal, or both are refused for reasons of one weight. -/
abbrev Weighed {α : Type} (x x' : Except Diagnostic α) : Prop :=
  Together (fun d d' => d.severity = d'.severity) Eq x x'

variable {n n' : Node}

/-- A check of the number that a tree stands for, which does not ask for its place. -/
theorem Node.Like.check {α : Type} (hT : T.Like L T') (h : n.Like L n')
    {check check' : Int64 → Except Diagnostic α} (hcheck : ∀ v, Weighed (check v) (check' v)) :
    Weighed
      (match n.numberIn T with
        | .error e => .error (.ofEvaluation e)
        | .ok v => check v)
      (match n'.numberIn T' with
        | .error e => .error (.ofEvaluation e)
        | .ok v => check' v) := by
  rcases (Like.numberIn hT h).results with ⟨v, v', hv, hv', rfl⟩ | ⟨e, e', he, he', -⟩
  · rw [hv, hv']
    exact hcheck v
  · rw [he, he']
    exact .error rfl

theorem Node.Like.immediate (hT : T.Like L T') (h : n.Like L n') (bits : Nat) :
    Weighed (immediate T bits n) (immediate T' bits n') := by
  refine h.check hT fun v => ?_
  split
  · exact .ok rfl
  · exact .error rfl

theorem Node.Like.gap (hT : T.Like L T') (h : n.Like L n') (address : Nat) :
    Weighed (gap T address n) (gap T' address n') := by
  refine h.check hT fun v => ?_
  split
  · exact .error rfl
  · exact .ok rfl

theorem Node.Like.reservation (hT : T.Like L T') (h : n.Like L n') :
    Weighed (reservation T n) (reservation T' n') := by
  refine h.check hT fun v => ?_
  split
  · exact .ok rfl
  · exact .error rfl

/-! ### Addresses -/

theorem Place.weighed_advance (p : Place) (count : Nat) (span span' : Span) :
    Pairs Eq SameWeight (p.advance count span) (p.advance count span') := by
  unfold advance
  dsimp only
  split
  · exact ⟨rfl, .single rfl⟩
  · exact ⟨rfl, .nil⟩

variable (L)

/-- One place, and tables that are alike. -/
structure Layout.Like (l l' : Layout) : Prop where
  place : l.place = l'.place
  symbols : l.symbols.Like L l'.symbols

/-- The statements have labels and bodies that are alike. -/
structure Statement.Like (s s' : Statement) : Prop where
  label : Option.Rel (Label.Like L) s.label s'.label
  body : Option.Rel (Body.Like L) s.body s'.body

variable {L}

theorem SymbolTable.Like.modify (hT : T.Like L T') {i i' : Identifier} (hi : L.name i i')
    {f : Symbol → Symbol} (hf : ∀ s s', s.Like L s' → (f s).Like L (f s')) :
    (T.modify i f).Like L (T'.modify i' f) := by
  refine List.forall₂_map_left_iff.mpr (List.forall₂_map_right_iff.mpr (hT.imp fun s s' hs => ?_))
  by_cases hname : s.name = i
  · rw [if_pos hname, if_pos ((L.name_iff hs.name hi).mp hname)]
    exact hf s s' hs
  · rw [if_neg hname, if_neg (mt (L.name_iff hs.name hi).mpr hname)]
    exact hs

namespace Layout

/-- The results of a step: layouts that are alike, and diagnostics of one weight. -/
abbrev StepsLike (L : Likeness) : Layout × List Diagnostic → Layout × List Diagnostic → Prop :=
  Pairs (Layout.Like L) SameWeight

variable {l l' : Layout}

theorem Like.define (h : l.Like L l') {a a' : Label} (ha : a.Like L a') (value : Int64) :
    StepsLike L (l.define a value) (l'.define a' value) := by
  have hget := h.symbols.get? ha.name
  unfold Layout.define SymbolTable.define
  generalize l.symbols.get? a.name = x at hget
  generalize l'.symbols.get? a'.name = x' at hget
  cases hget with
  | none => exact ⟨h, .single rfl⟩
  | some hs =>
      dsimp only
      rw [← hs.value]
      split
      · rename_i hdefined
        split at hdefined
        · cases hdefined
        · rename_i hnone
          cases hdefined
          rw [if_neg hnone]
          refine ⟨⟨h.place, h.symbols.modify ha.name fun s s' hs => ?_⟩, .nil⟩
          exact ⟨hs.name, hs.kind, hs.place, rfl, hs.used⟩
      · rename_i hrefused
        split at hrefused
        · rename_i hsome
          rw [if_pos hsome]
          exact ⟨h, .single rfl⟩
        · cases hrefused

theorem Like.advance (h : l.Like L l') (count : Nat) (span span' : Span) :
    StepsLike L (l.advance count span) (l'.advance count span') := by
  have hplace := l.place.weighed_advance count span span'
  unfold Layout.advance
  rw [← h.place]
  exact ⟨⟨hplace.fst, h.symbols⟩, hplace.snd⟩

theorem Like.advanceBy (h : l.Like L l') {count count' : Except Diagnostic Nat}
    (hcount : Weighed count count') (span span' : Span) :
    StepsLike L (l.advanceBy count span) (l'.advanceBy count' span') := by
  rcases hcount.results with ⟨m, m', rfl, rfl, rfl⟩ | ⟨d, d', rfl, rfl, hd⟩
  · exact h.advance m span span'
  · exact ⟨h, .single hd⟩

theorem Like.constant (h : l.Like L l') {a a' : Label} (ha : a.Like L a') (hn : n.Like L n') :
    StepsLike L (l.constant a n) (l'.constant a' n') := by
  unfold Layout.constant
  rcases (Node.Like.tryNumberIn h.symbols hn).results with
    ⟨v, v', hv, hv', rfl⟩ | ⟨e, e', he, he', -⟩
  · rw [hv, hv']
    cases v with
    | some v => exact h.define ha v
    | none => exact ⟨h, .single rfl⟩
  · rw [he, he']
    exact ⟨h, .single rfl⟩

theorem Like.body (h : l.Like L l') {b b' : Body} (hb : b.Like L b') (span span' : Span) :
    StepsLike L (l.body span b) (l'.body span' b') := by
  cases hb with
  | instruction => exact h.advance 2 span span'
  | constant ha hn => exact h.constant ha hn
  | origin hn =>
      unfold Layout.body
      rw [← h.place]
      exact h.advanceBy (hn.gap h.symbols _) _ _
  | bytes hns =>
      unfold Layout.body
      dsimp only
      rw [← hns.length_eq]
      exact h.advance _ span span'
  | words hns =>
      unfold Layout.body
      dsimp only
      rw [← hns.length_eq]
      exact h.advance _ span span'
  | reserve hn => exact h.advanceBy (hn.reservation h.symbols) span span'

theorem Like.statement (h : l.Like L l') {s s' : Statement} (hs : s.Like L s') :
    StepsLike L (l.statement s) (l'.statement s') := by
  obtain ⟨label, body, comment, span⟩ := s
  obtain ⟨label', body', comment', span'⟩ := s'
  have hlabel := hs.label
  have hbody := hs.body
  dsimp only at hlabel hbody
  unfold Layout.statement
  dsimp only
  cases hlabel with
  | none =>
      cases hbody with
      | none => exact ⟨h, .nil⟩
      | some hb => exact h.body hb span span'
  | some ha =>
      have hdefined := h.define ha (Int64.ofNat l.place.address)
      rw [← h.place]
      cases hbody with
      | none => exact ⟨hdefined.fst, hdefined.snd.append .nil⟩
      | some hb =>
          have hlaid := hdefined.fst.body hb span span'
          exact ⟨hlaid.fst, hdefined.snd.append hlaid.snd⟩

theorem Like.statements (h : l.Like L l') {ss ss' : List Statement}
    (hss : List.Forall₂ (Statement.Like L) ss ss') :
    StepsLike L (l.statements ss) (l'.statements ss') := by
  induction hss generalizing l l' with
  | nil => exact ⟨h, .nil⟩
  | cons hs _ ih =>
      have hfirst := h.statement hs
      have hrest := ih hfirst.fst
      exact ⟨hrest.fst, hfirst.snd.append hrest.snd⟩

end Layout

/-! ### Code -/

/-- The same bytes up to the same place, and diagnostics of one weight. -/
structure Output.Like (o o' : Output) : Prop where
  place : o.place = o'.place
  bytes : o.bytes = o'.bytes
  diagnostics : SameWeight o.diagnostics o'.diagnostics

namespace Output

theorem like_ofBytes (p : Place) (bytes : List UInt8) (span span' : Span) :
    (ofBytes p bytes span).Like (ofBytes p bytes span') := by
  have h := p.weighed_advance bytes.length span span'
  exact ⟨h.fst, rfl, h.snd⟩

variable {o o' : Output}

theorem Like.reporting (h : o.Like o') {ds ds' : List Diagnostic} (hds : SameWeight ds ds') :
    (o.reporting ds).Like (o'.reporting ds') :=
  ⟨h.place, h.bytes, hds.append h.diagnostics⟩

theorem Like.andThen (h : o.Like o') {next next' : Place → Output}
    (hnext : (next o.place).Like (next' o.place)) : (o.andThen next).Like (o'.andThen next') := by
  unfold Output.andThen
  dsimp only
  rw [← h.place, ← h.bytes]
  exact ⟨hnext.place, congrArg (o.bytes ++ ·) hnext.bytes, h.diagnostics.append hnext.diagnostics⟩

end Output

theorem orReport_weighed {α : Type} (default : α) {x x' : Except Diagnostic α}
    (h : Weighed x x') : Pairs Eq SameWeight (orReport default x) (orReport default x') := by
  cases h with
  | ok h => exact ⟨h, .nil⟩
  | error h => exact ⟨rfl, .single h⟩

theorem Node.Like.slotValue (hT : T.Like L T') (h : n.Like L n') (shape : Shape) :
    Weighed (slotValue T shape n) (slotValue T' shape n') := by
  unfold Asm.slotValue
  split
  · exact h.immediate hT _
  · cases h <;> exact .ok rfl

theorem like_slotValues (hT : T.Like L T') (shapes : List Shape) {ns ns' : List Node}
    (hns : List.Forall₂ (Node.Like L) ns ns') :
    Pairs Eq SameWeight (slotValues T shapes ns) (slotValues T' shapes ns') := by
  induction hns generalizing shapes with
  | nil =>
      cases shapes with
      | nil => exact ⟨rfl, .nil⟩
      | cons _ _ => exact ⟨rfl, .nil⟩
  | cons hn _ ih =>
      cases shapes with
      | nil => exact ⟨rfl, .nil⟩
      | cons shape shapes =>
          have hfirst := orReport_weighed 0 (hn.slotValue hT shape)
          have hrest := ih shapes
          exact ⟨congrArg₂ List.cons hfirst.fst hrest.fst, hfirst.snd.append hrest.snd⟩

theorem like_instructionWord (hT : T.Like L T') (form : Form) {ns ns' : List Node}
    (hns : List.Forall₂ (Node.Like L) ns ns') :
    Pairs Eq SameWeight (instructionWord T form ns) (instructionWord T' form ns') := by
  have hvalues := like_slotValues hT form.signature hns
  unfold instructionWord
  dsimp only
  rw [hvalues.fst, hvalues.snd.isEmpty]
  exact ⟨rfl, hvalues.snd⟩

theorem weight_alignment (address : Nat) (span span' : Span) :
    SameWeight (alignment address span) (alignment address span') := by
  unfold alignment
  split
  · exact .nil
  · exact .single rfl

theorem like_encodeValues (hT : T.Like L T') (bits : Nat) (toBytes : UInt16 → List UInt8)
    (span span' : Span) (p : Place) {ns ns' : List Node}
    (hns : List.Forall₂ (Node.Like L) ns ns') :
    (encodeValues T bits toBytes span p ns).Like (encodeValues T' bits toBytes span' p ns') := by
  induction hns generalizing p with
  | nil => exact ⟨rfl, rfl, .nil⟩
  | cons hn _ ih =>
      have hvalue := orReport_weighed 0 (hn.immediate hT bits)
      rw [encodeValues, encodeValues]
      dsimp only
      rw [hvalue.fst]
      exact ((Output.like_ofBytes _ _ _ _).reporting hvalue.snd).andThen (ih _)

theorem like_encodeZeros (p : Place) {count count' : Except Diagnostic Nat}
    (hcount : Weighed count count') (span span' : Span) :
    (encodeZeros p count span).Like (encodeZeros p count' span') := by
  rcases hcount.results with ⟨m, m', rfl, rfl, rfl⟩ | ⟨d, d', rfl, rfl, hd⟩
  · exact Output.like_ofBytes p _ span span'
  · exact ⟨rfl, rfl, .single hd⟩

theorem Body.Like.encode (hT : T.Like L T') {b b' : Body} (hb : b.Like L b') (span span' : Span)
    (p : Place) : (encodeBody T span p b).Like (encodeBody T' span' p b') := by
  cases hb with
  | @instruction form _ _ hns =>
      have hword := like_instructionWord hT form hns
      unfold encodeBody
      dsimp only
      rw [hword.fst]
      exact (Output.like_ofBytes _ _ _ _).reporting
        ((weight_alignment _ _ _).append hword.snd)
  | constant => exact ⟨rfl, rfl, .nil⟩
  | origin hn => exact like_encodeZeros p (hn.gap hT _) _ _
  | bytes hns => exact like_encodeValues hT 8 _ span span' p hns
  | words hns => exact like_encodeValues hT 16 _ span span' p hns
  | reserve hn => exact like_encodeZeros p (hn.reservation hT) span span'

theorem Statement.Like.encode (hT : T.Like L T') {s s' : Statement} (hs : s.Like L s')
    (p : Place) : (encodeStatement T p s).Like (encodeStatement T' p s') := by
  obtain ⟨label, body, comment, span⟩ := s
  obtain ⟨label', body', comment', span'⟩ := s'
  have hbody := hs.body
  dsimp only at hbody
  cases hbody with
  | none => exact ⟨rfl, rfl, .nil⟩
  | some hb => exact hb.encode hT span span' p

theorem like_encodeStatements (hT : T.Like L T') {ss ss' : List Statement}
    (hss : List.Forall₂ (Statement.Like L) ss ss') (p : Place) :
    (encodeStatements T p ss).Like (encodeStatements T' p ss') := by
  induction hss generalizing p with
  | nil => exact ⟨rfl, rfl, .nil⟩
  | cons hs _ ih => exact (hs.encode hT p).andThen (ih _)

/-! ### References -/

theorem Body.Like.nodes {b b' : Body} (h : b.Like L b') :
    List.Forall₂ (Node.Like L) b.nodes b'.nodes := by
  cases h with
  | instruction h | bytes h | words h => exact h
  | constant _ h | origin h | reserve h => exact .cons h .nil

theorem Statement.Like.references {s s' : Statement} (h : s.Like L s') :
    List.Forall₂ L.name s.references s'.references := by
  have hnodes : List.Forall₂ (Node.Like L) s.nodes s'.nodes := by
    obtain ⟨label, body, comment, span⟩ := s
    obtain ⟨label', body', comment', span'⟩ := s'
    have hbody := h.body
    dsimp only at hbody
    cases hbody with
    | none => exact .nil
    | some hb => exact hb.nodes
  exact List.rel_flatMap hnodes fun n _ hn => Node.Like.identifiers n hn

theorem SymbolTable.Like.markReferences (hT : T.Like L T') {ss ss' : List Statement}
    (hss : List.Forall₂ (Statement.Like L) ss ss') :
    (markReferences T ss).Like L (markReferences T' ss') := by
  have hreferences : List.Forall₂ L.name (ss.flatMap Statement.references)
      (ss'.flatMap Statement.references) :=
    List.rel_flatMap hss fun _ _ hs => hs.references
  unfold Asm.markReferences
  generalize ss.flatMap Statement.references = is at hreferences
  generalize ss'.flatMap Statement.references = is' at hreferences
  clear hss
  induction hreferences generalizing T T' with
  | nil => exact hT
  | cons hi _ ih =>
      exact ih (hT.modify hi fun s s' hs => ⟨hs.name, hs.kind, hs.place, hs.value, rfl⟩)

theorem SymbolTable.Like.unusedLabels (hT : T.Like L T') :
    SameWeight (unusedLabels T) (unusedLabels T') := by
  unfold SymbolTable.Like at hT
  unfold Asm.unusedLabels
  generalize T.symbols = ss at hT
  generalize T'.symbols = ss' at hT
  induction hT with
  | nil => exact .nil
  | @cons s s' ss ss' hs _ ih =>
      rw [List.filter_cons, List.filter_cons, hs.kind, hs.used]
      split
      · exact SameWeight.append (.single rfl) ih
      · exact ih

/-! ### Statements that say nothing -/

/-- Whether a statement says more than a comment does. -/
def Statement.saysCode (s : Statement) : Bool := s.label.isSome || s.body.isSome

/-- The statements that say more than a comment does. -/
def codeOf (ss : List Statement) : List Statement := ss.filter Statement.saysCode

theorem Statement.silent {s : Statement} (h : s.saysCode = false) :
    s.label = none ∧ s.body = none := by
  rw [saysCode, Bool.or_eq_false_iff] at h
  exact ⟨Option.isSome_eq_false_iff.mp h.1 |> Option.isNone_iff_eq_none.mp,
    Option.isSome_eq_false_iff.mp h.2 |> Option.isNone_iff_eq_none.mp⟩

theorem Layout.statements_codeOf (l : Layout) (ss : List Statement) :
    l.statements (codeOf ss) = l.statements ss := by
  induction ss generalizing l with
  | nil => rfl
  | cons s ss ih =>
      rw [codeOf, List.filter_cons]
      split
      · rw [Layout.statements, Layout.statements]
        exact congrArg (fun x => (x.1, (l.statement s).2 ++ x.2)) (ih _)
      · rename_i hsays
        have hsilent := Statement.silent (Bool.eq_false_iff.mpr hsays)
        have hstay : l.statement s = (l, []) := by
          unfold Layout.statement
          rw [hsilent.1, hsilent.2]
          rfl
        rw [Layout.statements, hstay]
        exact ih l

theorem encodeStatements_codeOf (T : SymbolTable) (p : Place) (ss : List Statement) :
    encodeStatements T p (codeOf ss) = encodeStatements T p ss := by
  induction ss generalizing p with
  | nil => rfl
  | cons s ss ih =>
      rw [codeOf, List.filter_cons]
      split
      · rw [encodeStatements, encodeStatements]
        exact congrArg _ (funext ih)
      · rename_i hsays
        have hsilent := Statement.silent (Bool.eq_false_iff.mpr hsays)
        have hnothing : encodeStatement T p s = .nothing p := by
          unfold encodeStatement
          rw [hsilent.2]
        rw [encodeStatements, hnothing]
        exact ih p

theorem markReferences_codeOf (T : SymbolTable) (ss : List Statement) :
    markReferences T (codeOf ss) = markReferences T ss := by
  have hreferences : (codeOf ss).flatMap Statement.references =
      ss.flatMap Statement.references := by
    induction ss with
    | nil => rfl
    | cons s ss ih =>
        rw [codeOf, List.filter_cons]
        split
        · exact congrArg (s.references ++ ·) ih
        · rename_i hsays
          have hsilent := Statement.silent (Bool.eq_false_iff.mpr hsays)
          have hnone : s.references = [] := by
            rw [Statement.references, Statement.nodes, hsilent.2]
            rfl
          rw [List.flatMap_cons, hnone]
          exact ih
  rw [markReferences, markReferences, hreferences]

/-! ### Programs -/

variable (L)

/-- Two source texts say what is alike, apart from statements that say nothing. -/
structure Parsed.Like (P P' : Parsed) : Prop where
  statements : List.Forall₂ (Statement.Like L) (codeOf P.statements) (codeOf P'.statements)
  symbols : P.symbols.Like L P'.symbols
  diagnostics : List.Forall₂ (Diagnostic.Like L) P.diagnostics P'.diagnostics

/-- The programs have the same bytes, and symbols that are alike. -/
structure Program.Like (P P' : Program) : Prop where
  bytes : P.bytes = P'.bytes
  symbols : P.symbols.Like L P'.symbols

variable {L}

/-- Lines with labels and bodies that stand for each other say what does, if they say anything. -/
theorem rel_statementOf? {R : Label → Label → Prop} {S : Body → Body → Prop} (l l' : Line)
    {a a' : Option Label} (ha : Option.Rel R a a') {b b' : Option Body} (hb : Option.Rel S b b') :
    List.Forall₂ (fun s s' => Option.Rel R s.label s'.label ∧ Option.Rel S s.body s'.body)
      (codeOf (statementOf? l a b).toList) (codeOf (statementOf? l' a' b').toList) := by
  have hsilent : ∀ m : Line, codeOf (statementOf? m none none).toList = [] := by
    intro m
    unfold statementOf?
    dsimp only
    split <;> rfl
  cases ha with
  | none =>
      cases hb with
      | none =>
          rw [hsilent, hsilent]
          exact .nil
      | some hb => exact .cons ⟨.none, .some hb⟩ .nil
  | some ha => exact .cons ⟨.some ha, hb⟩ .nil

theorem LineResult.Like.code {l l' : Line} {r r' : LineResult} (h : r.Like L l l' r') :
    List.Forall₂ (Statement.Like L) (codeOf r.statement.toList) (codeOf r'.statement.toList) := by
  rcases h.statement with ⟨hnone, hnone'⟩ | ⟨a, a', b, b', ha, hb, hs, hs'⟩
  · rw [hnone, hnone']
    exact .nil
  · rw [hs, hs']
    exact (rel_statementOf? l l' ha hb).imp fun _ _ hsame => ⟨hsame.1, hsame.2⟩

theorem rel_codeOf_append {R : Statement → Statement → Prop} {ss ss' us us' : List Statement}
    (hs : List.Forall₂ R (codeOf ss) (codeOf ss')) (hu : List.Forall₂ R (codeOf us) (codeOf us')) :
    List.Forall₂ R (codeOf (ss ++ us)) (codeOf (ss' ++ us')) := by
  rw [codeOf, codeOf, List.filter_append, List.filter_append]
  exact List.rel_append hs hu

/-- The induction is on the lines; the names declared before them are arbitrary. -/
theorem like_parseLines {scope scope' : Scope} (hscope : scope.Like L scope') {ls ls' : List Line}
    (hls : List.Forall₂ (Line.Like L) ls ls')
    (hknown : ∀ l ∈ ls, ∀ t ∈ l.names, L.Knows t.chars) :
    Parsed.Like L (parseLines scope ls) (parseLines scope' ls') := by
  induction hls generalizing scope scope' with
  | nil => exact ⟨.nil, hscope.symbols, .nil⟩
  | @cons l l' ls ls' hl _ ih =>
      have hline := like_parseLine hscope hl (hknown l List.mem_cons_self)
      have hrest := ih hline.scope fun m hm => hknown m (List.mem_cons_of_mem l hm)
      exact ⟨rel_codeOf_append hline.code hrest.statements, hrest.symbols,
        List.rel_append hline.diagnostics hrest.diagnostics⟩

theorem like_assembleParsed {P P' : Parsed} (h : P.Like L P') (origin : UInt16) :
    Together (fun _ _ => True) (Program.Like L) (assembleParsed P origin)
      (assembleParsed P' origin) := by
  have hstart : Layout.Like L ⟨.ofOrigin origin, P.symbols⟩ ⟨.ofOrigin origin, P'.symbols⟩ :=
    ⟨rfl, h.symbols⟩
  have hlayout := hstart.statements h.statements
  rw [Layout.statements_codeOf, Layout.statements_codeOf] at hlayout
  have hfound := (SameWeight.of_like h.diagnostics).append hlayout.snd
  have hcode := like_encodeStatements hlayout.fst.symbols h.statements (.ofOrigin origin)
  rw [encodeStatements_codeOf, encodeStatements_codeOf] at hcode
  have hmarked := hlayout.fst.symbols.markReferences h.statements
  rw [markReferences_codeOf, markReferences_codeOf] at hmarked
  have hall := (hfound.append hcode.diagnostics).append hmarked.unusedLabels
  unfold assembleParsed
  dsimp only
  rw [← hasErrors_of_like h.diagnostics, ← hfound.hasErrors, ← hall.hasErrors]
  split
  · exact .error trivial
  · split
    · exact .error trivial
    · split
      · exact .error trivial
      · exact .ok ⟨hcode.bytes, hmarked⟩

/-- **Alike sources assemble alike**: to one sequence of bytes and symbols that are alike, or not at
all. -/
theorem like_assemble {source source' : String}
    (hlines : List.Forall₂ (Line.Like L) (lines source) (lines source'))
    (hknown : ∀ l ∈ lines source, ∀ t ∈ l.names, L.Knows t.chars) (origin : UInt16) :
    Together (fun _ _ => True) (Program.Like L) (assemble source origin)
      (assemble source' origin) :=
  like_assembleParsed (like_parseLines Scope.like_empty hlines hknown) origin

end Chip8.Asm
