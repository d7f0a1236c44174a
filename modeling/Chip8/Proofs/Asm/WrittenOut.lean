import Chip8.Proofs.Asm.Fetch
import Chip8.Proofs.Asm.Meaning
import Chip8.Proofs.Asm.Passes
import Chip8.Proofs.Asm.Spacing

/-! # Names written out

What both passes make of statements in which names are replaced by the numbers that they stand for.

* **Trees.** In `n.WrittenOut F n'` some names of `n` are numbers in `n'`, those that they stand for
  in the table `F`. A name counts as much as the number as soon as it has its value, and a tree that
  has a value asks for no name that has none (`Node.WrittenOut.evaluate`).
* **Passes.** What the passes do without an error they do for the statements with the names written
  out, if `F` is the table that the first pass ends with: one lemma for each step that values a tree.
* `assembleParsed_writtenOut` is about the whole program. -/

namespace Chip8.Asm

variable (F : SymbolTable)

/-- The trees have one shape, and some names of the first one are written out in the second. -/
inductive Node.WrittenOut : Node → Node → Prop
  | number {v : Int64} {s s' : Span} : WrittenOut (.number v s) (.number v s')
  | register {r : UInt8} {s s' : Span} : WrittenOut (.register r s) (.register r s')
  | keyword {k : Keyword} {s s' : Span} : WrittenOut (.keyword k s) (.keyword k s')
  | name {i : Identifier} {s s' : Span} : WrittenOut (.name i s) (.name i s')
  | value {i : Identifier} {v : Int64} {s s' : Span} (value : F.lookup i = .value v) :
      WrittenOut (.name i s) (.number v s')
  | apply {op : Operator} {ns ns' : List Node} {s s' : Span}
      (operands : List.Forall₂ WrittenOut ns ns') : WrittenOut (.apply op ns s) (.apply op ns' s')

inductive Body.WrittenOut : Body → Body → Prop
  | instruction {form : Form} {ns ns' : List Node}
      (operands : List.Forall₂ (Node.WrittenOut F) ns ns') :
      WrittenOut (.instruction form ns) (.instruction form ns')
  | constant {a a' : Label} {n n' : Node} (label : a.Like .layout a') (value : n.WrittenOut F n') :
      WrittenOut (.constant a n) (.constant a' n')
  | origin {n n' : Node} (target : n.WrittenOut F n') : WrittenOut (.origin n) (.origin n')
  | bytes {ns ns' : List Node} (values : List.Forall₂ (Node.WrittenOut F) ns ns') :
      WrittenOut (.bytes ns) (.bytes ns')
  | words {ns ns' : List Node} (values : List.Forall₂ (Node.WrittenOut F) ns ns') :
      WrittenOut (.words ns) (.words ns')
  | reserve {n n' : Node} (count : n.WrittenOut F n') : WrittenOut (.reserve n) (.reserve n')

/-- The statements have one label, and bodies of which the second has names written out. -/
structure Statement.WrittenOut (s s' : Statement) : Prop where
  label : Option.Rel (Label.Like .layout) s.label s'.label
  body : Option.Rel (Body.WrittenOut F) s.body s'.body

variable {F} {T T' : SymbolTable} {n n' : Node}

/-! ### Values -/

namespace Node

mutual

/-- A tree that has a value keeps it. `T` is the table of the moment, in which a name may still be
undefined that is written out already; such a name leaves the whole tree undefined. -/
theorem WrittenOut.evaluate (hT : T.Extends F) (hT' : ∀ i, T'.lookup i = T.lookup i) :
    ∀ (n : Node) {n' : Node} {v : Value}, n.WrittenOut F n' → n.evaluate T = .ok v →
      v ≠ .undefined → n'.evaluate T' = .ok v
  | .number .., _, _, h, hv, _ => by
      cases h with
      | number => exact hv
  | .register .., _, _, _, hv, _ => nomatch hv
  | .keyword .., _, _, _, hv, _ => nomatch hv
  | .name i _, _, _, h, hv, hne => by
      rw [Node.evaluate] at hv
      cases hi : T.lookup i with
      | unknown =>
          rw [hi] at hv
          cases hv
      | undefined =>
          rw [hi] at hv
          cases hv
          exact absurd rfl hne
      | value m =>
          rw [hi] at hv
          cases hv
          cases h with
          | name => rw [Node.evaluate, hT' i, hi]
          | value hF =>
              rw [hT.value i m hi] at hF
              cases hF
              rfl
  | .apply op ns s, _, _, h, hv, hne => by
      cases h with
      | @apply _ _ ns' _ s' hns =>
          obtain ⟨vs, hvs, hlength, happly⟩ := evaluate_apply_eq_ok hv
          have hdefined : Value.undefined ∉ vs :=
            mt (op.undefined_of_apply s hlength happly).mpr hne
          have hvs' := WrittenOut.evaluateAll hT hT' ns hns hvs hdefined
          rw [evaluate_apply hvs' hlength]
          rcases (op.sameValue_apply s s' vs).results with ⟨w, w', hw, hw', rfl⟩ | ⟨e, e', he, -, -⟩
          · rw [hw', ← hw, happly]
          · rw [happly] at he
            cases he

theorem WrittenOut.evaluateAll (hT : T.Extends F) (hT' : ∀ i, T'.lookup i = T.lookup i) :
    ∀ (ns : List Node) {ns' : List Node} {vs : List Value},
      List.Forall₂ (Node.WrittenOut F) ns ns' →
      List.Forall₂ (fun n v => n.evaluate T = .ok v) ns vs → Value.undefined ∉ vs →
      List.Forall₂ (fun n v => n.evaluate T' = .ok v) ns' vs
  | [], _, _, h, hvs, _ => by
      cases h
      cases hvs
      exact .nil
  | n :: ns, _, _, h, hvs, hdefined => by
      cases h with
      | cons hn hns =>
          cases hvs with
          | cons hv hvs =>
              rw [List.mem_cons, not_or] at hdefined
              exact .cons (WrittenOut.evaluate hT hT' n hn hv (Ne.symm hdefined.1))
                (WrittenOut.evaluateAll hT hT' ns hns hvs hdefined.2)

end

variable (hT : T.Extends F) (hT' : ∀ i, T'.lookup i = T.lookup i) (h : n.WrittenOut F n')

include hT hT' h

theorem WrittenOut.numberIn {v : Int64} (hv : n.numberIn T = .ok v) : n'.numberIn T' = .ok v := by
  unfold Node.numberIn at hv ⊢
  cases hr : n.evaluate T with
  | error e =>
      rw [hr] at hv
      cases hv
  | ok value =>
      rw [hr] at hv
      cases value with
      | number m =>
          rw [WrittenOut.evaluate hT hT' n h hr (by simp)]
          exact hv
      | boolean b => cases hv
      | undefined => cases hv

theorem WrittenOut.tryNumberIn {v : Int64} (hv : n.tryNumberIn T = .ok (some v)) :
    n'.tryNumberIn T' = .ok (some v) := by
  have hnumber := h.numberIn hT hT' (numberIn_of_tryNumberIn hv)
  unfold Node.numberIn at hnumber
  unfold Node.tryNumberIn
  split at hnumber
  · cases hnumber
    rfl
  · cases hnumber
  · cases hnumber
  · cases hnumber

theorem WrittenOut.gap {a k : Nat} (hk : gap T a n = .ok k) : gap T' a n' = .ok k := by
  obtain ⟨v, hv, hlow, hhigh, rfl⟩ := gap_eq_ok hk
  unfold Asm.gap
  rw [h.numberIn hT hT' hv]
  dsimp only
  rw [if_neg (by omega)]
  congr 1
  omega

theorem WrittenOut.reservation {k : Nat} (hk : reservation T n = .ok k) :
    reservation T' n' = .ok k := by
  obtain ⟨v, hv, hlow, hhigh, rfl⟩ := reservation_eq_ok hk
  unfold Asm.reservation
  rw [h.numberIn hT hT' hv]
  exact if_pos ⟨hlow, hhigh⟩

theorem WrittenOut.immediate {bits : Nat} {w : UInt16} (hw : immediate T bits n = .ok w) :
    immediate T' bits n' = .ok w := by
  unfold Asm.immediate at hw ⊢
  split at hw
  · cases hw
  · rename_i v hv
    rw [h.numberIn hT hT' hv]
    dsimp only
    split at hw
    · exact hw
    · cases hw

theorem WrittenOut.slotValue {shape : Shape} {w : UInt16} (hw : slotValue T shape n = .ok w) :
    slotValue T' shape n' = .ok w := by
  unfold Asm.slotValue at hw ⊢
  split at hw
  · exact h.immediate hT hT' hw
  · cases h <;> exact hw

end Node

/-! ### Addresses -/

namespace Layout

variable {l l' : Layout} (h : l.Like .layout l') (hF : l.symbols.Extends F)

include h hF

theorem Like.body_writtenOut {b b' : Body} (hb : b.WrittenOut F b') (span span' : Span)
    (hok : hasErrors (l.body span b).2 = false) :
    StepsLike .layout (l.body span b) (l'.body span' b') := by
  have hsame : ∀ i, l'.symbols.lookup i = l.symbols.lookup i := fun i => (h.symbols.lookup rfl).symm
  have hby : ∀ {count count' : Except Diagnostic Nat} {span span' : Span}, Refuses count →
      (∀ k, count = .ok k → count' = .ok k) → hasErrors (l.advanceBy count span).2 = false →
      StepsLike .layout (l.advanceBy count span) (l'.advanceBy count' span') := by
    intro count count' span span' hrefuses hcount hok
    cases count with
    | ok k =>
        rw [hcount k rfl]
        exact h.advanceBy (.ok rfl) span span'
    | error d => simp [Layout.advanceBy, hasErrors, hrefuses d rfl] at hok
  cases hb with
  | instruction => exact h.advance 2 span span'
  | @constant a a' n n' ha hn =>
      unfold Layout.body at hok ⊢
      dsimp only at hok ⊢
      unfold Layout.constant at hok ⊢
      cases hv : n.tryNumberIn l.symbols with
      | error e =>
          rw [hv] at hok
          cases hok
      | ok v =>
          rw [hv] at hok
          cases v with
          | none => cases hok
          | some v =>
              rw [hn.tryNumberIn hF hsame hv]
              exact h.define ha v
  | origin hn =>
      unfold Layout.body at hok ⊢
      rw [← h.place]
      exact hby (refuses_gap _ _ _) (fun k hk => hn.gap hF hsame hk) hok
  | bytes hns =>
      unfold Layout.body
      dsimp only
      rw [← hns.length_eq]
      exact h.advance _ span span'
  | words hns =>
      unfold Layout.body
      dsimp only
      rw [← hns.length_eq]
      exact h.advance _ span span'
  | reserve hn =>
      exact hby (refuses_reservation _ _) (fun k hk => hn.reservation hF hsame hk) hok

omit hF in
theorem Like.statement_writtenOut {s s' : Statement} (hs : s.WrittenOut F s')
    (hok : hasErrors (l.statement s).2 = false) (hF : (l.statement s).1.symbols.Extends F) :
    StepsLike .layout (l.statement s) (l'.statement s') := by
  have hbehind := (l.behindLabel_extends s).trans hF
  obtain ⟨label, body, comment, span⟩ := s
  obtain ⟨label', body', comment', span'⟩ := s'
  have hlabel := hs.label
  have hbody := hs.body
  unfold behindLabel Layout.statement at hbehind
  unfold Layout.statement at hok ⊢
  dsimp only at hlabel hbody hbehind hok ⊢
  cases hlabel with
  | none =>
      cases hbody with
      | none => exact ⟨h, .nil⟩
      | some hb => exact h.body_writtenOut hbehind hb span span' hok
  | some ha =>
      have hdefined := h.define ha (Int64.ofNat l.place.address)
      rw [← h.place]
      cases hbody with
      | none => exact ⟨hdefined.fst, hdefined.snd.append .nil⟩
      | some hb =>
          rw [hasErrors_append, Bool.or_eq_false_iff] at hok
          have hlaid := hdefined.fst.body_writtenOut hbehind hb span span' hok.2
          exact ⟨hlaid.fst, hdefined.snd.append hlaid.snd⟩

omit hF in
/-- The names of every statement have their values in the table that the first pass ends with. -/
theorem Like.statements_writtenOut {ss ss' : List Statement}
    (hss : List.Forall₂ (Statement.WrittenOut F) ss ss')
    (hok : hasErrors (l.statements ss).2 = false) (hF : (l.statements ss).1.symbols.Extends F) :
    StepsLike .layout (l.statements ss) (l'.statements ss') := by
  induction hss generalizing l l' with
  | nil => exact ⟨h, .nil⟩
  | @cons s s' ss ss' hs _ ih =>
      rw [Layout.statements, hasErrors_append, Bool.or_eq_false_iff] at hok
      have hfirst := h.statement_writtenOut hs hok.1 ((extends_all _ ss).trans hF)
      have hrest := ih hfirst.fst hok.2 hF
      exact ⟨hrest.fst, hfirst.snd.append hrest.snd⟩

end Layout

/-! ### Code -/

section Code

variable (hT : ∀ i, T'.lookup i = T.lookup i)

include hT

theorem slotValues_writtenOut (shapes : List Shape) {ns ns' : List Node}
    (hns : List.Forall₂ (Node.WrittenOut T) ns ns')
    (hok : hasErrors (slotValues T shapes ns).2 = false) :
    slotValues T' shapes ns' = slotValues T shapes ns := by
  induction hns generalizing shapes with
  | nil => cases shapes <;> rfl
  | @cons n n' ns ns' hn _ ih =>
      cases shapes with
      | nil => rfl
      | cons shape shapes =>
          rw [slotValues] at hok
          dsimp only at hok
          rw [hasErrors_append, Bool.or_eq_false_iff] at hok
          obtain ⟨w, hw, -⟩ := orReport_of_noErrors (refuses_slotValue T shape n) hok.1
          rw [slotValues, slotValues, ih shapes hok.2, hw, hn.slotValue (.refl T) hT hw]

theorem encodeValues_writtenOut (bits : Nat) (toBytes : UInt16 → List UInt8) (span span' : Span)
    (p : Place) {ns ns' : List Node} (hns : List.Forall₂ (Node.WrittenOut T) ns ns')
    (hok : hasErrors (encodeValues T bits toBytes span p ns).diagnostics = false) :
    (encodeValues T bits toBytes span p ns).Like (encodeValues T' bits toBytes span' p ns') := by
  induction hns generalizing p with
  | nil => exact ⟨rfl, rfl, .nil⟩
  | @cons n n' ns ns' hn _ ih =>
      rw [encodeValues] at hok
      dsimp only at hok
      rw [Output.hasErrors_andThen, Bool.or_eq_false_iff, Output.reporting, hasErrors_append,
        Bool.or_eq_false_iff] at hok
      obtain ⟨w, hw, -⟩ := orReport_of_noErrors (refuses_immediate T bits n) hok.1.1
      rw [encodeValues, encodeValues, hn.immediate (.refl T) hT hw, hw]
      rw [hw] at hok
      exact ((Output.like_ofBytes p (toBytes w) span span').reporting .nil).andThen (ih _ hok.2)

omit hT in
theorem encodeZeros_writtenOut (p : Place) {count count' : Except Diagnostic Nat}
    (hrefuses : Refuses count) (hcount : ∀ k, count = .ok k → count' = .ok k) (span span' : Span)
    (hok : hasErrors (encodeZeros p count span).diagnostics = false) :
    (encodeZeros p count span).Like (encodeZeros p count' span') := by
  cases count with
  | ok k =>
      rw [hcount k rfl]
      exact like_encodeZeros p (.ok rfl) span span'
  | error d => simp [encodeZeros, hasErrors, hrefuses d rfl] at hok

theorem encodeBody_writtenOut {b b' : Body} (hb : b.WrittenOut T b') (span span' : Span) (p : Place)
    (hok : hasErrors (encodeBody T span p b).diagnostics = false) :
    (encodeBody T span p b).Like (encodeBody T' span' p b') := by
  cases hb with
  | @instruction form ns ns' hns =>
      unfold encodeBody at hok ⊢
      dsimp only at hok ⊢
      rw [Output.reporting, hasErrors_append, hasErrors_append, Bool.or_eq_false_iff,
        Bool.or_eq_false_iff] at hok
      have hword : instructionWord T' form ns' = instructionWord T form ns := by
        unfold instructionWord
        rw [slotValues_writtenOut hT _ hns hok.1.2]
      rw [hword]
      exact (Output.like_ofBytes _ _ _ _).reporting ((weight_alignment _ _ _).append rfl)
  | constant => exact ⟨rfl, rfl, .nil⟩
  | origin hn =>
      exact encodeZeros_writtenOut p (refuses_gap _ _ _)
        (fun k hk => hn.gap (.refl T) hT hk) _ _ hok
  | bytes hns => exact encodeValues_writtenOut hT 8 _ span span' p hns hok
  | words hns => exact encodeValues_writtenOut hT 16 _ span span' p hns hok
  | reserve hn =>
      exact encodeZeros_writtenOut p (refuses_reservation _ _)
        (fun k hk => hn.reservation (.refl T) hT hk) _ _ hok

theorem encodeStatements_writtenOut {ss ss' : List Statement}
    (hss : List.Forall₂ (Statement.WrittenOut T) ss ss') (p : Place)
    (hok : hasErrors (encodeStatements T p ss).diagnostics = false) :
    (encodeStatements T p ss).Like (encodeStatements T' p ss') := by
  induction hss generalizing p with
  | nil => exact ⟨rfl, rfl, .nil⟩
  | @cons s s' ss ss' hs _ ih =>
      rw [encodeStatements, Output.hasErrors_andThen, Bool.or_eq_false_iff] at hok
      refine Output.Like.andThen ?_ (ih _ hok.2)
      obtain ⟨label, body, comment, span⟩ := s
      obtain ⟨label', body', comment', span'⟩ := s'
      have hbody := hs.body
      dsimp only at hbody
      cases hbody with
      | none => exact ⟨rfl, rfl, .nil⟩
      | some hb => exact encodeBody_writtenOut hT hb span span' p hok.1

end Code

/-! ### Programs -/

variable (F)

/-- The second text says what the first one does, with some names written out, apart from statements
that say nothing; nothing is wrong with it. -/
structure Parsed.WrittenOut (P P' : Parsed) : Prop where
  statements : List.Forall₂ (Statement.WrittenOut F) (codeOf P.statements) (codeOf P'.statements)
  symbols : P.symbols.Like .layout P'.symbols
  diagnostics : P'.diagnostics = []

variable {F}

/-- Marks are no part of what a table tells about its symbols. -/
theorem entries_markReferences (t : SymbolTable) (ss : List Statement) :
    (markReferences t ss).symbols.map Symbol.entry = t.symbols.map Symbol.entry := by
  rw [markReferences, SymbolTable.symbols_foldl_markUsed, List.map_map]
  rfl

/-- **Names may be written out**, if they are given the values that the program gives them. -/
theorem assembleParsed_writtenOut {P P' : Parsed} {origin : UInt16} {program : Program}
    (h : assembleParsed P origin = .ok program) (hP : P.WrittenOut program.symbols P') :
    ∃ program', assembleParsed P' origin = .ok program' ∧ program'.bytes = program.bytes ∧
      program'.symbols.symbols.map Symbol.entry = program.symbols.symbols.map Symbol.entry := by
  obtain ⟨-, hlayout, hcode, rfl⟩ := assembleParsed_eq_ok.mp h
  have hstart : Layout.Like .layout ⟨.ofOrigin origin, P.symbols⟩ ⟨.ofOrigin origin, P'.symbols⟩ :=
    ⟨rfl, hP.symbols⟩
  have hmarked := lookup_markReferences
    (Layout.statements ⟨.ofOrigin origin, P.symbols⟩ P.statements).1.symbols P.statements
  have hfirst := hstart.statements_writtenOut hP.statements
  rw [Layout.statements_codeOf, Layout.statements_codeOf] at hfirst
  have hlaid := hfirst hlayout (.of_lookup_eq hmarked)
  have hsecond := encodeStatements_writtenOut
    (fun i => (hlaid.fst.symbols.lookup rfl).symm.trans (hmarked i).symm) hP.statements
    (.ofOrigin origin)
  rw [encodeStatements_codeOf, encodeStatements_codeOf, encodeStatements_congr hmarked] at hsecond
  have hcoded := hsecond hcode
  refine ⟨_, assembleParsed_eq_ok.mpr ⟨?_, ?_, ?_, rfl⟩, hcoded.bytes.symm, ?_⟩
  · rw [hP.diagnostics]
    rfl
  · rw [← hlaid.snd.hasErrors, hlayout]
  · rw [← hcoded.diagnostics.hasErrors, hcode]
  · dsimp only
    rw [entries_markReferences, entries_markReferences, entries_of_like hlaid.fst.symbols]

end Chip8.Asm
