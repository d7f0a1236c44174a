import Chip8.Proofs.Asm.Parentheses
import Chip8.Proofs.Asm.WrittenReading
import Mathlib.Data.List.Lattice
import Mathlib.Data.List.Nodup
import Mathlib.Data.List.Pairwise

/-! # Lines in which names are written out

* `Line.operands` are the operands and expressions of a line, each with the tokens that it is read
  from; no token belongs to two of them. `Line.Writes` says of the spelling of a line that only these
  are written anew, each as it permits.
* **Bodies.** One lemma for each reading function: what is read up to the end of a line is read up
  to the end with names written out, and declares the same names.
* `writtenOut_parseLines`: the induction over the lines, with the names declared above. -/

namespace Chip8.Asm

variable {F : SymbolTable} {spell : Token → List Char}

/-! ### Operands of a line -/

/-- The pieces that are read completely, each with what is read from it. -/
def readings (read : Piece → Except Diagnostic (Node × List Token)) (ps : List Piece) :
    List (List Token × Node) :=
  ps.filterMap fun p =>
    match read p with
    | .ok (n, []) => some (p.tokens, n)
    | _ => none

/-- The expressions of a directive, with the tokens that they are read from. The name that it
declares is none. -/
def directiveOperands (aliases : Aliases) (stop name : Token) (ts : List Token) :
    List (List Token × Node) :=
  match Directive.ofToken? name with
  | some .constant => readings (readTree aliases) (pieces stop (ts.drop 2))
  | some .registerAlias | none => []
  | some .origin | some .bytes | some .words | some .reserve =>
      readings (readTree aliases) (pieces stop ts)

/-- The operands of an instruction or directive, with the tokens that they are read from. -/
def bodyOperands (aliases : Aliases) (stop : Token) : List Token → List (List Token × Node)
  | [] => []
  | t :: ts =>
      match t.kind with
      | .name => readings (readOperand aliases) (pieces stop ts)
      | .directive => directiveOperands aliases stop t ts
      | _ => []

/-- The operands of a line behind its label. -/
def Line.operands (aliases : Aliases) (l : Line) : List (List Token × Node) :=
  bodyOperands aliases l.stop (splitLabel l.tokens).2

/-- Tokens of a line are spelled with their own characters or as an operand permits to which they
belong. -/
def Line.Writes (F : SymbolTable) (spell : Token → List Char) (aliases : Aliases) (l : Line) :
    Prop :=
  ∀ t ∈ l.tokens,
    spell t = t.chars ∨ ∃ o ∈ l.operands aliases, t ∈ o.1 ∧ spell t ∈ o.2.spellings F t

instance (F : SymbolTable) (spell : Token → List Char) (aliases : Aliases) (l : Line) :
    Decidable (l.Writes F spell aliases) :=
  inferInstanceAs (Decidable (∀ t ∈ l.tokens,
    spell t = t.chars ∨ ∃ o ∈ l.operands aliases, t ∈ o.1 ∧ spell t ∈ o.2.spellings F t))

theorem mem_readings {read : Piece → Except Diagnostic (Node × List Token)} {ps : List Piece}
    {o : List Token × Node} (h : o ∈ readings read ps) :
    ∃ p ∈ ps, p.tokens = o.1 ∧ read p = .ok (o.2, []) := by
  obtain ⟨p, hp, ho⟩ := List.mem_filterMap.mp h
  refine ⟨p, hp, ?_⟩
  split at ho
  · rename_i hread
    cases ho
    exact ⟨rfl, hread⟩
  · cases ho

theorem mem_of_mem_readings {read : Piece → Except Diagnostic (Node × List Token)} {stop : Token}
    {ts : List Token} : ∀ o ∈ readings read (pieces stop ts), ∀ t ∈ o.1, t ∈ ts := by
  intro o ho t ht
  obtain ⟨p, hp, htokens, -⟩ := mem_readings ho
  exact mem_of_mem_pieces hp (htokens ▸ ht)

theorem mem_of_mem_directiveOperands {aliases : Aliases} {stop name : Token} {ts : List Token} :
    ∀ o ∈ directiveOperands aliases stop name ts, ∀ t ∈ o.1, t ∈ ts := by
  intro o ho t ht
  unfold directiveOperands at ho
  split at ho
  · exact List.mem_of_mem_drop (mem_of_mem_readings o ho t ht)
  · cases ho
  · cases ho
  all_goals exact mem_of_mem_readings o ho t ht

/-- The mnemonic or directive in front belongs to no operand. -/
theorem mem_of_mem_bodyOperands {aliases : Aliases} {stop : Token} {ts : List Token} :
    ∀ o ∈ bodyOperands aliases stop ts, ∀ t ∈ o.1, t ∈ ts.tail := by
  intro o ho t ht
  unfold bodyOperands at ho
  split at ho
  · cases ho
  · split at ho
    · exact mem_of_mem_readings o ho t ht
    · exact mem_of_mem_directiveOperands o ho t ht
    · cases ho

/-! ### Places of tokens -/

theorem nodup_tokensFrom (offset : Nat) (cs : List Char) :
    (tokensFrom 0 offset cs).Nodup ∧ ∀ t ∈ tokensFrom 0 offset cs, offset ≤ t.span.start := by
  induction offset, cs using scan_induction with
  | nil offset => exact ⟨List.nodup_nil, fun t ht => absurd ht List.not_mem_nil⟩
  | blank offset c cs hc ih =>
      rw [tokensFrom_blank offset hc]
      exact ⟨ih.1, fun t ht => (Nat.le_add_right _ _).trans (ih.2 t ht)⟩
  | token offset c cs kind taken rest hc h ih =>
      have hpos := Char.utf8Size_pos c
      rw [tokensFrom_step h offset hc, List.nodup_cons, List.forall_mem_cons]
      rw [byteLength_cons] at ih
      refine ⟨⟨fun hmem => ?_, ih.1⟩, Nat.le_refl offset, fun t ht => ?_⟩
      · have hstart := ih.2 _ hmem
        dsimp only at hstart
        omega
      · have hstart := ih.2 t ht
        omega

/-- No token is in a line twice. -/
theorem Line.nodup_tokens (l : Line) : l.tokens.Nodup := (nodup_tokensFrom l.offset l.code).1

theorem sublist_pieces (stop : Token) (ts : List Token) :
    ((pieces stop ts).flatMap Piece.tokens).Sublist ts := by
  induction ts with
  | nil => exact List.Sublist.refl []
  | cons t ts ih =>
      obtain ⟨p, ps, hps⟩ := exists_pieces stop ts
      rw [hps, List.flatMap_cons] at ih
      rw [pieces, hps]
      split
      · rw [List.flatMap_cons, List.nil_append, List.flatMap_cons]
        exact ih.cons t
      · rw [List.flatMap_cons, List.cons_append]
        exact ih.cons_cons t

/-- No token is in two pieces. -/
theorem eq_of_mem_pieces {stop t : Token} {ts : List Token} (hts : ts.Nodup) {p q : Piece}
    (hp : p ∈ pieces stop ts) (hq : q ∈ pieces stop ts) (htp : t ∈ p.tokens) (htq : t ∈ q.tokens) :
    p = q := by
  have hdisjoint := (List.nodup_flatMap.mp ((sublist_pieces stop ts).nodup hts)).2
  by_contra hne
  have hsymm : Std.Symm (Function.onFun List.Disjoint Piece.tokens) :=
    ⟨fun _ _ h => List.Disjoint.symm h⟩
  exact hdisjoint.forall hp hq hne htp htq

/-! ### Tokens that are written anew -/

/-- Tokens are the same in the new text, or spelled as an operand permits to which they belong. -/
def Permitted (F : SymbolTable) (spell : Token → List Char) (os : List (List Token × Node))
    (ts : List Token) : Prop :=
  ∀ t ∈ ts, t.Kept spell ∨ ∃ o ∈ os, t ∈ o.1 ∧ spell t ∈ o.2.spellings F t

namespace Permitted

variable {os : List (List Token × Node)} {t : Token} {ts : List Token}

theorem shown (h : Permitted F spell os ts) : ∀ t ∈ ts, t.Shown (faces (spell t)) := by
  intro t ht
  rcases h t ht with hkept | ⟨o, -, -, hmem⟩
  · rw [hkept]
    exact .kept
  · exact shown_of_mem_spellings hmem

theorem tail (h : Permitted F spell os (t :: ts)) : Permitted F spell os ts :=
  (List.forall_mem_cons.mp h).2

/-- A token in front of all operands is the same. -/
theorem head (h : Permitted F spell os (t :: ts)) (hts : (t :: ts).Nodup)
    (hos : ∀ o ∈ os, ∀ u ∈ o.1, u ∈ ts) : t.Kept spell := by
  rcases h t List.mem_cons_self with hkept | ⟨o, ho, ht, -⟩
  · exact hkept
  · exact absurd (hos o ho t ht) (List.nodup_cons.mp hts).1

theorem kept_of_kind (h : Permitted F spell os (t :: ts)) (ht : t.kind ≠ .name) : t.Kept spell :=
  (h.shown t List.mem_cons_self).kept_of_kind ht

theorem kept_all (h : Permitted F spell [] ts) : ∀ t ∈ ts, t.Kept spell := by
  intro t ht
  rcases h t ht with hkept | ⟨o, ho, -⟩
  · exact hkept
  · cases ho

end Permitted

/-! ### Lists of operands -/

section Lists

variable {read₀ read read' : Piece → Except Diagnostic (Node × List Token)} {stop stop' : Token}
  {ts us : List Token}

theorem pieces_append {vs ws : List Token} (hvs : ∀ v ∈ vs, v.kind ≠ .comma) {p : Piece}
    {ps : List Piece} (h : pieces stop ws = p :: ps) :
    pieces stop (vs ++ ws) = ⟨vs ++ p.tokens, p.stop⟩ :: ps := by
  induction vs with
  | nil => exact h
  | cons v vs ih =>
      rw [List.forall_mem_cons] at hvs
      rw [List.cons_append, pieces, if_neg hvs.1, ih hvs.2]
      rfl

/-- Commas stay and none are added. -/
theorem spelt_pieces (hstop : stop.StopsLike .layout stop')
    (hshown : ∀ t ∈ ts, t.Shown (faces (spell t))) (hus : Spelt spell ts us) :
    List.Forall₂ (Piece.Spelt spell) (pieces stop ts) (pieces stop' us) := by
  induction ts generalizing us with
  | nil =>
      rw [hus.eq_nil]
      exact .cons ⟨rfl, hstop⟩ .nil
  | cons t ts ih =>
      rw [List.forall_mem_cons] at hshown
      by_cases hcomma : t.kind = .comma
      · have hkept : t.Kept spell := hshown.1.kept_of_kind (by rw [hcomma]; decide)
        obtain ⟨t', ws, rfl, hface, hws⟩ := hus.kept hkept
        have ht := like_of_face hface
        rw [pieces, pieces, if_pos hcomma, if_pos (ht.kind ▸ hcomma)]
        exact .cons ⟨rfl, ht.stopsLike⟩ (ih hshown.2 hws)
      · obtain ⟨vs, ws, rfl, hvs, hws⟩ := hus.cons
        have hnone : ∀ v ∈ vs, v.kind ≠ .comma := by
          intro v hv hkind
          have hmem : v.face ∈ faces (spell t) := hvs ▸ List.mem_map_of_mem hv
          exact hcomma ((hshown.1.kind_of_mem hmem (Or.inl hkind)).trans hkind)
        obtain ⟨p, ps, hps⟩ := exists_pieces stop ts
        obtain ⟨p', ps', hps'⟩ := exists_pieces stop' ws
        have hrest := ih hshown.2 hws
        rw [hps, hps'] at hrest
        cases hrest with
        | cons hp hrest =>
            rw [pieces, if_neg hcomma, hps, pieces_append hnone hps']
            exact .cons ⟨hp.tokens.append hvs, hp.stop⟩ hrest

/-- Since no token belongs to two pieces, each piece is written as its own tree permits. -/
theorem permitted_of_mem_pieces (hts : ts.Nodup)
    (h : Permitted F spell (readings read (pieces stop ts)) ts) {p : Piece}
    (hp : p ∈ pieces stop ts) : p.Permitted F spell read := by
  intro n hn t ht
  rcases h t (mem_of_mem_pieces hp ht) with hkept | ⟨o, ho, hto, hmem⟩
  · exact Or.inl hkept
  · obtain ⟨q, hq, htokens, hread⟩ := mem_readings ho
    obtain rfl := eq_of_mem_pieces hts hp hq ht (htokens ▸ hto)
    rw [hn] at hread
    cases hread
    exact Or.inr hmem

/-- The pieces are read alike, where `read₀` tells what they permit. -/
theorem readsWritten_pieces (hstop : stop.StopsLike .layout stop') (hts : ts.Nodup)
    (hus : Spelt spell ts us) (h : Permitted F spell (readings read₀ (pieces stop ts)) ts)
    (hread : ∀ p p', p.Spelt spell p' → p.Permitted F spell read₀ →
      ReadsWritten F read read' p p') :
    List.Forall₂ (ReadsWritten F read read') (pieces stop ts) (pieces stop' us) := by
  have hboth := (List.forall₂_and_left _ _).mpr
    ⟨fun p hp => permitted_of_mem_pieces hts h hp, spelt_pieces hstop h.shown hus⟩
  exact hboth.imp fun p p' hp => hread p p' hp.2 hp.1

theorem writtenOut_readPieces {ps ps' : List Piece}
    (hread : List.Forall₂ (ReadsWritten F read read') ps ps') {ns : List Node}
    (h : readPieces read ps = .ok (ns, none)) :
    ∃ ns', readPieces read' ps' = .ok (ns', none) ∧ List.Forall₂ (Node.WrittenOut F) ns ns' := by
  have hns := read_of_readPieces h
  clear h
  induction hread generalizing ns with
  | nil =>
      cases hns
      exact ⟨[], rfl, .nil⟩
  | @cons p p' ps ps' hp _ ih =>
      cases hns with
      | cons hn hns =>
          obtain ⟨n', hn', hwritten⟩ := hp _ hn
          obtain ⟨ns', hns', hall⟩ := ih hns
          refine ⟨n' :: ns', ?_, .cons hwritten hall⟩
          rw [Reader.readPieces_cons hn', hns']
          rfl

/-- Where one expression is asked for, it is the only piece. -/
theorem readSingle_eq_ok {n : Node} : readSingle read stop ts = .ok (n, none) ↔
    readPieces read (pieces stop ts) = .ok ([n], none) := by
  rcases Reader.exists_comma ts with hnone | ⟨vs, comma, ws, rfl, hvs, hcomma⟩
  · rw [readSingle, Reader.firstPiece_of_no_comma hnone, pieces_of_no_comma hnone]
    constructor
    · intro h
      obtain ⟨⟨m, rest⟩, hm, hrest⟩ := map_eq_ok h
      cases rest with
      | cons t rest => cases hrest
      | nil =>
          cases hrest
          exact Reader.readPieces_last hm
    · intro h
      cases read_of_readPieces h with
      | cons hn _ =>
          dsimp only
          rw [hn]
          rfl
  · rw [readSingle, Reader.firstPiece_comma hvs hcomma, pieces_comma hvs hcomma]
    constructor
    · intro h
      obtain ⟨⟨m, rest⟩, -, hrest⟩ := map_eq_ok h
      cases rest <;> cases hrest
    · intro h
      obtain ⟨p, ps, hps⟩ := exists_pieces stop ws
      rw [hps] at h
      cases read_of_readPieces h with
      | cons _ hrest => cases hrest

theorem writtenOut_readSingle
    (hread : List.Forall₂ (ReadsWritten F read read') (pieces stop ts) (pieces stop' us)) {n : Node}
    (h : readSingle read stop ts = .ok (n, none)) :
    ∃ n', readSingle read' stop' us = .ok (n', none) ∧ n.WrittenOut F n' := by
  obtain ⟨ns', hns', hwritten⟩ := writtenOut_readPieces hread (readSingle_eq_ok.mp h)
  cases hwritten with
  | cons hn hrest =>
      cases hrest
      exact ⟨_, readSingle_eq_ok.mpr hns', hn⟩

end Lists

/-! ### Parts of a body -/

theorem identifierOf_of_chars {t t' : Token} (h : t.chars = t'.chars) {i : Identifier}
    (hi : identifierOf t = .ok i) : identifierOf t' = .ok i := by
  have hchars := identifierOf_eq_ok hi
  rw [identifierOf, ← h, ← hchars, Identifier.ofChars?_chars]

theorem expect_cons {kind : TokenKind} {t : Token} (ht : t.kind = kind) (expected : String)
    (stop : Token) (ts : List Token) : expect kind expected stop (t :: ts) = .ok (t, ts) :=
  if_pos ht

/-- A token that is asked for is the first one, unless it may end the code. -/
theorem expect_inv {kind : TokenKind} {expected : String} {stop t : Token} {ts rest : List Token}
    (hstop : stop.kind ≠ kind) (h : expect kind expected stop ts = .ok (t, rest)) :
    ts = t :: rest ∧ t.kind = kind := by
  obtain ⟨-, hkind, -⟩ := expect_eq_ok h
  cases ts with
  | nil => exact absurd (expect_eq_ok h).2.1 (by
      rw [List.mem_singleton.mp (expect_eq_ok h).1]
      exact hstop)
  | cons u us =>
      unfold expect at h
      dsimp only at h
      split at h
      · cases h
        exact ⟨rfl, hkind⟩
      · cases h

/-- What ends the code is no token that is asked for. -/
theorem ne_of_endsCode {k kind : TokenKind} (hk : k.endsCode = true)
    (hkind : kind.endsCode = false) : k ≠ kind := by
  rintro rfl
  rw [hk] at hkind
  cases hkind

/-! ### Trees of a line -/

section Nodes

variable {scope scope' : Scope} {aliases : Aliases} {stop : Token} {ts : List Token}
  {b : Option Body}

theorem nodes_of_reads {read : Piece → Except Diagnostic (Node × List Token)} {ps : List Piece}
    {ns : List Node} (h : List.Forall₂ (fun p n => read p = .ok (n, [])) ps ns) :
    (readings read ps).map Prod.snd = ns := by
  induction h with
  | nil => rfl
  | @cons p n ps ns hn _ ih =>
      rw [readings, List.filterMap_cons, hn]
      exact congrArg (n :: ·) ih

/-- Values are read as expressions. -/
theorem nodes_of_values {ns : List Node}
    (h : readPieces (readValue aliases) (pieces stop ts) = .ok (ns, none)) :
    (readings (readTree aliases) (pieces stop ts)).map Prod.snd = ns :=
  nodes_of_reads ((read_of_readPieces h).imp fun _ _ => readTree_of_readValue)

theorem nodes_of_readInstruction {mnemonic : Token} {b : Body}
    (h : readInstruction aliases stop mnemonic ts = .ok (b, none)) :
    (readings (readOperand aliases) (pieces stop ts)).map Prod.snd = b.nodes := by
  obtain ⟨form, ns, rfl, -, hns, -⟩ := readInstruction_eq_ok.mp h
  cases ts with
  | nil =>
      cases hns
      rfl
  | cons t ts => exact nodes_of_reads (read_of_readPieces hns)

theorem nodes_of_readConstant (hstop : stop.kind.endsCode = true) {b : Body}
    (h : readConstant scope stop ts = .ok (scope', b, none)) :
    (readings (readTree scope.aliases) (pieces stop (ts.drop 2))).map Prod.snd = b.nodes := by
  obtain ⟨t, ts₁, i, comma, ts₂, n, rfl, ht, -, hcomma, hn, -⟩ := readConstant_eq_ok.mp h
  obtain ⟨rfl, -⟩ := expect_inv (ne_of_endsCode hstop rfl) ht
  obtain ⟨rfl, -⟩ := expect_inv (ne_of_endsCode hstop rfl) hcomma
  exact nodes_of_reads (read_of_readPieces (readSingle_eq_ok.mp hn))

theorem nodes_of_readDirective (hstop : stop.kind.endsCode = true) {name : Token}
    (h : readDirective scope stop name ts = .ok (scope', b, none)) :
    (directiveOperands scope.aliases stop name ts).map Prod.snd = b.elim [] Body.nodes := by
  unfold directiveOperands
  cases readDirective_eq_ok.mp h with
  | constant hname hread =>
      rw [hname]
      exact nodes_of_readConstant hstop hread
  | registerAlias hname _ =>
      rw [hname]
      rfl
  | only hname hn =>
      rcases hname with ⟨hname, rfl⟩ | ⟨hname, rfl⟩
      all_goals
        rw [hname]
        exact nodes_of_values (readSingle_eq_ok.mp hn)
  | all hname hns =>
      rcases hname with ⟨hname, rfl⟩ | ⟨hname, rfl⟩
      all_goals
        rw [hname]
        exact nodes_of_values hns

theorem nodes_of_readBody (hstop : stop.kind.endsCode = true)
    (h : readBody scope stop ts = .ok (scope', b, none)) :
    (bodyOperands scope.aliases stop ts).map Prod.snd = b.elim [] Body.nodes := by
  rcases readBody_cases h with
    ⟨-, rfl, hrest⟩ | ⟨t, us, rfl, ⟨hkind, -, c, rfl, hread⟩ | ⟨hkind, hread⟩⟩
  · rw [List.head?_eq_none_iff.mp hrest.symm]
    rfl
  · unfold bodyOperands
    dsimp only
    rw [hkind]
    exact nodes_of_readInstruction hread
  · unfold bodyOperands
    dsimp only
    rw [hkind]
    exact nodes_of_readDirective hstop hread

end Nodes

/-! ### Bodies with names written out -/

section Bodies

variable {scope scope' : Scope} {aliases aliases' : Aliases} {stop stop' : Token}
  {ts us : List Token} (hstop : stop.EndsLike .layout stop') (hus : Spelt spell ts us)

include hstop hus

theorem writtenOut_readInstruction (haliases : aliases.Like .layout aliases') (hts : ts.Nodup)
    (hpermitted : Permitted F spell (readings (readOperand aliases) (pieces stop ts)) ts)
    {t t' : Token} (ht : t.face = t'.face) {b : Body}
    (h : readInstruction aliases stop t ts = .ok (b, none)) :
    ∃ b', readInstruction aliases' stop' t' us = .ok (b', none) ∧ b.WrittenOut F b' := by
  obtain ⟨-, hchars⟩ := Prod.mk.inj ht
  have hread : List.Forall₂ (ReadsWritten F (readOperand aliases) (readOperand aliases'))
      (operandPieces stop ts) (operandPieces stop' us) := by
    unfold operandPieces
    rw [hus.isEmpty hpermitted.shown]
    split
    · exact .nil
    · exact readsWritten_pieces hstop.stopsLike hts hus hpermitted fun p p' =>
        writtenOut_readOperand haliases
  obtain ⟨form, ns, rfl, hmnemonic, hns, hmatching⟩ := readInstruction_eq_ok.mp h
  rw [readOperands_eq] at hns
  obtain ⟨ns', hns', hwritten⟩ := writtenOut_readPieces hread hns
  rw [matching_congr (.refl t.chars) (hwritten.imp fun _ _ => Node.WrittenOut.fits)] at hmatching
  rw [hchars] at hmnemonic hmatching
  refine ⟨.instruction form ns', ?_, .instruction hwritten⟩
  exact readInstruction_eq_ok.mpr
    ⟨form, ns', rfl, hmnemonic, (readOperands_eq _ _ _).trans hns', hmatching⟩

theorem writtenOut_readConstant (hscope : scope.Like .layout scope') (hts : ts.Nodup)
    (hpermitted :
      Permitted F spell (readings (readTree scope.aliases) (pieces stop (ts.drop 2))) ts)
    {s : Scope} {b : Body} (h : readConstant scope stop ts = .ok (s, b, none)) :
    ∃ s' b', readConstant scope' stop' us = .ok (s', b', none) ∧ s.Like .layout s' ∧
      b.WrittenOut F b' := by
  obtain ⟨t, ts₁, i, comma, ts₂, n, rfl, ht, hi, hc, hn, hs⟩ := readConstant_eq_ok.mp h
  obtain ⟨rfl, hname⟩ := expect_inv (ne_of_endsCode hstop.kind.1 rfl) ht
  obtain ⟨rfl, hcomma⟩ := expect_inv (ne_of_endsCode hstop.kind.1 rfl) hc
  -- The name and the comma are in front of the expression, so they stay.
  have hkept : t.Kept spell := hpermitted.head hts fun o ho u hu =>
    List.mem_cons_of_mem _ (mem_of_mem_readings o ho u hu)
  obtain ⟨t', us₁, rfl, hface, hus₁⟩ := hus.kept hkept
  obtain ⟨comma', us₂, rfl, hface', hus₂⟩ :=
    hus₁.kept (hpermitted.tail.kept_of_kind (by rw [hcomma]; decide))
  have hrest : ts₂.Nodup := (List.nodup_cons.mp (List.nodup_cons.mp hts).2).2
  have hread := readsWritten_pieces hstop.stopsLike hrest hus₂ hpermitted.tail.tail fun p p' =>
    writtenOut_readTree hscope.aliases
  obtain ⟨n', hn', hwritten⟩ := writtenOut_readSingle hread hn
  have hlabel : Label.Like .layout ⟨i, t.span⟩ ⟨i, t'.span⟩ := ⟨rfl, trivial⟩
  rcases (agree_declare hscope .constant hlabel).results with
    ⟨s, s', hs₁, hs', hlike⟩ | ⟨d, -, hd, -, -⟩
  · cases hs.symm.trans hs₁
    refine ⟨s', .constant ⟨i, t'.span⟩ n', ?_, hlike, .constant hlabel hwritten⟩
    exact readConstant_eq_ok.mpr ⟨t', comma' :: us₂, i, comma', us₂, n', rfl,
      expect_cons ((like_of_face hface).kind.symm.trans hname) _ _ _,
      identifierOf_of_chars (Prod.mk.inj hface).2 hi,
      expect_cons ((like_of_face hface').kind.symm.trans hcomma) _ _ _, hn', hs'⟩
  · cases hs.symm.trans hd

/-- An alias is declared with tokens that are no operands. -/
theorem writtenOut_readAlias (hscope : scope.Like .layout scope')
    (hpermitted : Permitted F spell [] ts) {s : Scope}
    (h : readAlias scope stop ts = .ok (s, none)) :
    ∃ s', readAlias scope' stop' us = .ok (s', none) ∧ s.Like .layout s' := by
  have hlike := like_of_map_face (hus.map_face_of_kept hpermitted.kept_all)
  rcases (agree_readAlias hscope hstop hlike fun t _ _ =>
    Likeness.layout_knows t.chars).results with
    ⟨⟨s, rest⟩, ⟨s', rest'⟩, hs, hs', hsame⟩ | ⟨d, -, hd, -, -⟩
  · cases h.symm.trans hs
    have hrest := hsame.snd
    dsimp only at hrest
    cases hrest
    exact ⟨s', hs', hsame.fst⟩
  · cases h.symm.trans hd

theorem writtenOut_readDirective (hscope : scope.Like .layout scope') (hts : ts.Nodup)
    {name name' : Token} (hname : name.face = name'.face)
    (hpermitted : Permitted F spell (directiveOperands scope.aliases stop name ts) ts) {s : Scope}
    {b : Option Body} (h : readDirective scope stop name ts = .ok (s, b, none)) :
    ∃ s' b', readDirective scope' stop' name' us = .ok (s', b', none) ∧ s.Like .layout s' ∧
      Option.Rel (Body.WrittenOut F) b b' := by
  have hsame : Directive.ofToken? name = Directive.ofToken? name' :=
    ofToken?_like (like_of_face hname)
  have hvalues : Permitted F spell (readings (readTree scope.aliases) (pieces stop ts)) ts →
      List.Forall₂ (ReadsWritten F (readValue scope.aliases) (readValue scope'.aliases))
        (pieces stop ts) (pieces stop' us) := fun hpermitted =>
    readsWritten_pieces hstop.stopsLike hts hus hpermitted fun p p' =>
      writtenOut_readValue hscope.aliases
  unfold directiveOperands at hpermitted
  cases readDirective_eq_ok.mp h with
  | constant hdirective hread =>
      rw [hdirective] at hpermitted
      obtain ⟨s', b', hread', hlike, hwritten⟩ :=
        writtenOut_readConstant hstop hus hscope hts hpermitted hread
      exact ⟨s', some b', readDirective_eq_ok.mpr (.constant (hsame ▸ hdirective) hread'), hlike,
        .some hwritten⟩
  | registerAlias hdirective hread =>
      rw [hdirective] at hpermitted
      obtain ⟨s', hread', hlike⟩ := writtenOut_readAlias hstop hus hscope hpermitted hread
      exact ⟨s', none, readDirective_eq_ok.mpr (.registerAlias (hsame ▸ hdirective) hread'), hlike,
        .none⟩
  | @only make n hdirective hn =>
      have hmake : ∀ n', n.WrittenOut F n' → (make n).WrittenOut F (make n') := by
        rcases hdirective with ⟨-, rfl⟩ | ⟨-, rfl⟩
        · exact fun _ hn' => .origin hn'
        · exact fun _ hn' => .reserve hn'
      have hread := hvalues (by
        rcases hdirective with ⟨hd, -⟩ | ⟨hd, -⟩ <;> simpa only [hd] using hpermitted)
      obtain ⟨n', hn', hwritten⟩ := writtenOut_readSingle hread hn
      exact ⟨scope', some (make n'), readDirective_eq_ok.mpr (.only (hsame ▸ hdirective) hn'),
        hscope, .some (hmake n' hwritten)⟩
  | @all make ns hdirective hns =>
      have hmake : ∀ ns', List.Forall₂ (Node.WrittenOut F) ns ns' →
          (make ns).WrittenOut F (make ns') := by
        rcases hdirective with ⟨-, rfl⟩ | ⟨-, rfl⟩
        · exact fun _ hns' => .bytes hns'
        · exact fun _ hns' => .words hns'
      have hread := hvalues (by
        rcases hdirective with ⟨hd, -⟩ | ⟨hd, -⟩ <;> simpa only [hd] using hpermitted)
      obtain ⟨ns', hns', hwritten⟩ := writtenOut_readPieces hread hns
      exact ⟨scope', some (make ns'), readDirective_eq_ok.mpr (.all (hsame ▸ hdirective) hns'),
        hscope, .some (hmake ns' hwritten)⟩

theorem writtenOut_readBody (hscope : scope.Like .layout scope') (hts : ts.Nodup)
    (hpermitted : Permitted F spell (bodyOperands scope.aliases stop ts) ts) {s : Scope}
    {b : Option Body} (h : readBody scope stop ts = .ok (s, b, none)) :
    ∃ s' b', readBody scope' stop' us = .ok (s', b', none) ∧ s.Like .layout s' ∧
      Option.Rel (Body.WrittenOut F) b b' := by
  cases ts with
  | nil =>
      cases h
      rw [hus.eq_nil]
      exact ⟨scope', none, rfl, hscope, .none⟩
  | cons t ts =>
      have hkept : t.Kept spell := hpermitted.head hts mem_of_mem_bodyOperands
      obtain ⟨t', ws, rfl, hface, hws⟩ := hus.kept hkept
      have hrest := hpermitted.tail
      have hkind := (like_of_face hface).kind
      unfold bodyOperands at hrest
      unfold readBody at h ⊢
      dsimp only at h hrest ⊢
      rw [← hkind]
      cases ht : t.kind with
      | name =>
          rw [ht] at h hrest
          obtain ⟨⟨b, rest⟩, hread, heq⟩ := map_eq_ok h
          cases heq
          obtain ⟨b', hread', hwritten⟩ := writtenOut_readInstruction hstop hws hscope.aliases
            (List.nodup_cons.mp hts).2 hrest hface hread
          refine ⟨scope', some b', ?_, hscope, .some hwritten⟩
          dsimp only
          rw [hread']
          rfl
      | directive =>
          rw [ht] at h hrest
          exact writtenOut_readDirective hstop hws hscope (List.nodup_cons.mp hts).2 hface hrest h
      | _ =>
          rw [ht] at h
          cases h

end Bodies

/-! ### Lines -/

section Lines

variable {scope scope' : Scope} {l l' : Line}

variable (F) in
/-- What two lines add to the names stands for each other, nothing is wrong with the second one, and
what they say differs in names that are written out. -/
structure LineResult.WrittenOut (r r' : LineResult) : Prop where
  scope : r.scope.Like .layout r'.scope
  diagnostics : r'.diagnostics = []
  code : List.Forall₂ (Statement.WrittenOut F) (codeOf r.statement.toList)
    (codeOf r'.statement.toList)

theorem endsLike_stop (l l' : Line) : l.stop.EndsLike .layout l'.stop :=
  ⟨⟨l.endsCode_stop, l'.endsCode_stop⟩, trivial⟩

theorem writtenOut_parseRest (hscope : scope.Like .layout scope') {label label' : Option Label}
    (hlabel : Option.Rel (Label.Like .layout) label label') {ts us : List Token}
    (hus : Spelt spell ts us) (hts : ts.Nodup)
    (hpermitted : Permitted F spell (bodyOperands scope.aliases l.stop ts) ts)
    {reports : List Diagnostic}
    (hok : (parseRest scope l label reports ts).diagnostics = []) :
    LineResult.WrittenOut F (parseRest scope l label reports ts)
      (parseRest scope' l' label' [] us) := by
  unfold parseRest at hok ⊢
  cases hread : readBody scope l.stop ts with
  | error d => simp [hread] at hok
  | ok x =>
      obtain ⟨s, b, rest⟩ := x
      cases rest with
      | some t => simp [hread] at hok
      | none =>
          obtain ⟨s', b', hread', hlike, hwritten⟩ :=
            writtenOut_readBody (endsLike_stop l l') hus hscope hts hpermitted hread
          rw [hread']
          exact ⟨hlike, rfl, (rel_statementOf? l l' hlabel hwritten).imp fun _ _ hsame =>
            ⟨hsame.1, hsame.2⟩⟩

theorem sublist_splitLabel (ts : List Token) : (splitLabel ts).2.Sublist ts := by
  unfold splitLabel
  split
  · split
    · exact (List.sublist_cons_self _ _).trans (List.sublist_cons_self _ _)
    · exact .refl _
  · exact .refl _

/-- The label stays, and no other line gets one. -/
theorem spelt_splitLabel {ts us : List Token} (hus : Spelt spell ts us) (hts : ts.Nodup)
    {os : List (List Token × Node)} (hpermitted : Permitted F spell os ts)
    (hos : ∀ o ∈ os, ∀ t ∈ o.1, t ∈ (splitLabel ts).2.tail) :
    Option.Rel (Token.Like .layout) (splitLabel ts).1 (splitLabel us).1 ∧
      Spelt spell (splitLabel ts).2 (splitLabel us).2 := by
  cases ts with
  | nil =>
      rw [hus.eq_nil]
      exact ⟨.none, rfl⟩
  | cons t ts =>
      have hbehind : ∀ u ∈ (splitLabel (t :: ts)).2.tail, u ∈ ts := by
        unfold splitLabel
        split
        · rename_i colon rest heq
          cases heq
          split
          · exact fun u hu => List.mem_cons_of_mem _ (List.mem_of_mem_tail hu)
          · exact fun u hu => hu
        · exact fun u hu => hu
      have hkept : t.Kept spell := hpermitted.head hts fun o ho u hu => hbehind u (hos o ho u hu)
      obtain ⟨t', us, rfl, hface, hrest⟩ := hus.kept hkept
      have ht := like_of_face hface
      cases ts with
      | nil =>
          rw [hrest.eq_nil] at hus ⊢
          exact ⟨.none, hus⟩
      | cons u ts =>
          obtain ⟨vs, ws, rfl, hvs, hws⟩ := hrest.cons
          have hshown := hpermitted.tail.shown u List.mem_cons_self
          rw [← hvs] at hshown
          cases vs with
          | nil => cases hshown
          | cons v vs =>
              rw [splitLabel, List.cons_append, splitLabel, ← ht.kind]
              by_cases hcolon : u.kind = .colon
              · have hsame : vs = [] ∧ v.face = u.face := by
                  have hfaces := hshown.kept_of_kind (by rw [hcolon]; decide)
                  rw [List.map_cons, List.cons.injEq, List.map_eq_nil_iff] at hfaces
                  exact ⟨hfaces.2, hfaces.1⟩
                obtain ⟨rfl, hv⟩ := hsame
                rw [(like_of_face hv).kind]
                split
                · exact ⟨.some ht, hws⟩
                · exact ⟨.none, hus⟩
              · have hcolon' : v.kind ≠ .colon := fun hv =>
                  hcolon ((hshown.kind_of_mem List.mem_cons_self (Or.inr hv)).trans hv)
                rw [if_neg fun h => hcolon h.2, if_neg fun h => hcolon' h.2]
                exact ⟨.none, hus⟩

theorem reports_of_parseRest {label : Option Label} {reports : List Diagnostic} {ts : List Token}
    (hok : (parseRest scope l label reports ts).diagnostics = []) : reports = [] := by
  unfold parseRest at hok
  split at hok
  · exact (List.append_eq_nil_iff.mp hok).1
  · exact (List.append_eq_nil_iff.mp hok).1
  · exact hok

theorem writtenOut_parseLine (hscope : scope.Like .layout scope')
    (hus : Spelt spell l.tokens l'.tokens)
    (hpermitted : Permitted F spell (l.operands scope.aliases) l.tokens)
    (hok : (parseLine scope l).diagnostics = []) :
    LineResult.WrittenOut F (parseLine scope l) (parseLine scope' l') := by
  obtain ⟨hlabel, hrest⟩ :=
    spelt_splitLabel hus l.nodup_tokens hpermitted mem_of_mem_bodyOperands
  have hsublist := sublist_splitLabel l.tokens
  have hnodup := hsublist.nodup l.nodup_tokens
  replace hpermitted : Permitted F spell (l.operands scope.aliases) (splitLabel l.tokens).2 :=
    fun t ht => hpermitted t (hsublist.subset ht)
  unfold Line.operands at hpermitted
  unfold parseLine at hok ⊢
  generalize splitLabel l.tokens = x at *
  generalize splitLabel l'.tokens = x' at *
  obtain ⟨t?, ts⟩ := x
  obtain ⟨t?', us⟩ := x'
  dsimp only at *
  cases hlabel with
  | none => exact writtenOut_parseRest hscope .none hrest hnodup hpermitted hok
  | @some t t' ht =>
      dsimp only at hok ⊢
      rcases (agree_declareLabel hscope ht (Likeness.layout_knows t.chars)).results with
        ⟨⟨s, ds, a⟩, ⟨s', ds', a'⟩, hs, hs', hsame⟩ | ⟨d, d', hd, -, -⟩
      · rw [hs] at hok ⊢
        rw [hs']
        have hreports := hsame.snd.fst
        dsimp only at hok hreports
        rw [reports_of_parseRest hok] at hreports
        cases hreports
        rw [← aliases_declareLabel hs] at hpermitted
        exact writtenOut_parseRest hsame.fst hsame.snd.snd hrest hnodup hpermitted hok
      · rw [hd] at hok
        cases hok

/-! ### Source texts -/

/-- The lines are spelled as their operands permit, with the aliases declared above them. -/
inductive WritesLines (F : SymbolTable) (spell : Token → List Char) : Scope → List Line → Prop
  | nil (scope : Scope) : WritesLines F spell scope []
  | cons {scope : Scope} {l : Line} {ls : List Line} (line : l.Writes F spell scope.aliases)
      (rest : WritesLines F spell (parseLine scope l).scope ls) :
      WritesLines F spell scope (l :: ls)

instance WritesLines.decidable (F : SymbolTable) (spell : Token → List Char) :
    (scope : Scope) → (ls : List Line) → Decidable (WritesLines F spell scope ls)
  | scope, [] => .isTrue (.nil scope)
  | scope, l :: ls =>
      have := WritesLines.decidable F spell (parseLine scope l).scope ls
      decidable_of_iff (l.Writes F spell scope.aliases ∧
          WritesLines F spell (parseLine scope l).scope ls)
        ⟨fun h => .cons h.1 h.2, fun | .cons line rest => ⟨line, rest⟩⟩

theorem Line.Writes.permitted {aliases : Aliases} (h : l.Writes F spell aliases) :
    Permitted F spell (l.operands aliases) l.tokens := by
  intro t ht
  refine (h t ht).imp_left fun hspell => ?_
  rw [Token.Kept, hspell]
  exact faces_chars_of_mem_tokensFrom _ _ t ht

theorem Line.Writes.spelled {aliases : Aliases} (h : l.Writes F spell aliases) :
    ∀ t ∈ l.tokens, t.Spelled (spell t) := by
  intro t ht
  rcases h t ht with hspell | ⟨o, -, -, hmem⟩
  · rw [hspell]
    exact .kept
  · exact Node.spelled_of_mem_spellings hmem

theorem WritesLines.spelled {ls : List Line} (h : WritesLines F spell scope ls) :
    ∀ l ∈ ls, ∀ t ∈ l.tokens, t.Spelled (spell t) := by
  induction h with
  | nil => exact fun l hl => absurd hl List.not_mem_nil
  | cons hline _ ih => exact List.forall_mem_cons.mpr ⟨hline.spelled, ih⟩

/-- The induction is on the lines; the names declared before them are arbitrary. -/
theorem writtenOut_parseLines (hscope : scope.Like .layout scope') {ls ls' : List Line}
    (hls : List.Forall₂ (fun l l' => Spelt spell l.tokens l'.tokens) ls ls')
    (hwrites : WritesLines F spell scope ls) (hok : (parseLines scope ls).diagnostics = []) :
    Parsed.WrittenOut F (parseLines scope ls) (parseLines scope' ls') := by
  induction hls generalizing scope scope' with
  | nil => exact ⟨.nil, hscope.symbols, rfl⟩
  | @cons l l' ls ls' hl _ ih =>
      cases hwrites with
      | cons hwrites hlater =>
          rw [parseLines, List.append_eq_nil_iff] at hok
          have hline := writtenOut_parseLine hscope hl hwrites.permitted hok.1
          have hrest := ih hline.scope hlater hok.2
          refine ⟨rel_codeOf_append hline.code hrest.statements, hrest.symbols, ?_⟩
          rw [parseLines, hline.diagnostics, hrest.diagnostics]
          rfl

end Lines

end Chip8.Asm
