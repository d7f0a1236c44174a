import Chip8.Proofs.Asm.Operands
import Chip8.Proofs.Asm.Likeness

/-! # Alike lines are read alike

One lemma for each reading function, from a token up to a line: on tokens that are alike the two
results are alike, or both are refused with diagnostics that are alike. The names among the tokens
have to be known, except where a keyword stands as an operand (`operandNames`).

`like_parseLine` puts them together. -/

namespace Chip8.Asm

variable {L : Likeness}

/-! ### Single tokens -/

theorem agree_identifierOf {t t' : Token} (ht : t.Like L t') (hknown : L.Knows t.chars) :
    L.Agree L.name (identifierOf t) (identifierOf t') := by
  have hvalid := (L.spelledAlike ht.word).isIdentifier
  unfold identifierOf
  cases hname : isIdentifier t.chars with
  | true =>
      have h := Identifier.ofChars?_chars ⟨t.chars, hname⟩
      have h' := Identifier.ofChars?_chars ⟨t'.chars, hvalid ▸ hname⟩
      dsimp only at h h'
      rw [h, h']
      exact .ok (hknown _ _ _ ht.word h h')
  | false =>
      have h : Identifier.ofChars? t.chars = none :=
        dif_neg (by rw [hname]; exact Bool.false_ne_true)
      have h' : Identifier.ofChars? t'.chars = none :=
        dif_neg (by rw [← hvalid, hname]; exact Bool.false_ne_true)
      rw [h, h']
      exact .error ⟨.invalidName ht.word, ht.place⟩

theorem agree_numberOf {t t' : Token} (ht : t.Like L t') (base : Base) :
    L.Agree Eq (numberOf base t) (numberOf base t') := by
  have hread := ((L.spelledAlike ht.word).drop base.markLength).number base.radix
    0x7FFFFFFFFFFFFFFF
  unfold numberOf
  rw [← hread]
  split
  · exact .ok rfl
  · exact .error ⟨.badNumber ht.word, ht.place⟩

variable {aliases aliases' : Aliases}

theorem agree_nameOf (haliases : aliases.Like L aliases') {t t' : Token} (ht : t.Like L t')
    (hknown : L.Knows t.chars) :
    L.Agree (Node.Like L) (nameOf aliases t) (nameOf aliases' t') := by
  unfold nameOf
  rcases (agree_identifierOf ht hknown).results with ⟨i, i', hi, hi', h⟩ | ⟨d, d', hd, hd', h⟩
  · rw [hi, hi']
    dsimp only
    rw [haliases.get? h]
    split
    · exact .error ⟨.aliasInExpression h, ht.place⟩
    · exact .ok (.name h ht.place)
  · rw [hd, hd']
    exact .error h

/-! ### Expressions -/

/-- Two trees stand for each other, with the places in them, if they are built in one way from trees
that do. -/
structure Congruence (place : Span → Span → Prop) (R : Node → Node → Prop) : Prop where
  join : ∀ {a a' b b' : Span}, place a a' → place b b' → place (a.join b) (a'.join b')
  span : ∀ {n n' : Node}, R n n' → place n.span n'.span
  withSpan : ∀ {n n' : Node} {s s' : Span}, R n n' → place s s' → R (n.withSpan s) (n'.withSpan s')
  apply : ∀ {op : Operator} {ns ns' : List Node} {s s' : Span}, List.Forall₂ R ns ns' →
    place s s' → R (.apply op ns s) (.apply op ns' s')

variable (L)

theorem Likeness.congruence : Congruence L.place (Node.Like L) where
  join := L.place_join
  span := Node.Like.place
  withSpan h hs := h.withSpan hs
  apply := .apply

section Frames

variable (place : Span → Span → Prop) (R : Node → Node → Prop)

inductive Frame.Like : Frame → Frame → Prop
  | prefixed {op : Operator} {s s' : Span} (place : place s s') :
      Like (.prefixed op s) (.prefixed op s')
  | paren {s s' : Span} (place : place s s') : Like (.paren s) (.paren s')
  | binary {op : Operator} {n n' : Node} (left : R n n') :
      Like (.binary op n) (.binary op n')

inductive Continuation.Like : Continuation → Continuation → Prop
  | operand {fs fs' : List Frame} (frames : List.Forall₂ (Frame.Like place R) fs fs') :
      Like (.operand fs) (.operand fs')
  | operator {fs fs' : List Frame} {n n' : Node} (frames : List.Forall₂ (Frame.Like place R) fs fs')
      (operand : R n n') : Like (.operator fs n) (.operator fs' n')
  | done {n n' : Node} (tree : R n n') : Like (.done n) (.done n')
  | unclosed : Like .unclosed .unclosed

variable {place R} (hR : Congruence place R) {frames frames' : List Frame} {n n' : Node}

include hR

theorem Frame.like_settle (hframes : List.Forall₂ (Frame.Like place R) frames frames')
    (hn : R n n') :
    Pairs (List.Forall₂ (Frame.Like place R)) R (settle frames n) (settle frames' n') := by
  induction hframes generalizing n n' with
  | nil => exact ⟨.nil, hn⟩
  | cons hframe hframes ih =>
      cases hframe with
      | prefixed hplace =>
          rw [settle, settle]
          exact ih (hR.apply (.cons hn .nil) (hR.join hplace (hR.span hn)))
      | paren hplace => exact ⟨.cons (.paren hplace) hframes, hn⟩
      | binary hleft => exact ⟨.cons (.binary hleft) hframes, hn⟩

theorem Frame.like_close (strength : Nat)
    (hframes : List.Forall₂ (Frame.Like place R) frames frames') (hn : R n n') :
    Pairs (List.Forall₂ (Frame.Like place R)) R (close strength frames n)
      (close strength frames' n') := by
  induction hframes generalizing n n' with
  | nil => exact ⟨.nil, hn⟩
  | cons hframe hframes ih =>
      cases hframe with
      | prefixed hplace => exact ⟨.cons (.prefixed hplace) hframes, hn⟩
      | paren hplace => exact ⟨.cons (.paren hplace) hframes, hn⟩
      | @binary op left left' hleft =>
          rw [close, close]
          cases op.precedence.any (strength ≤ ·) with
          | true =>
              rw [if_pos rfl, if_pos rfl]
              exact ih (hR.apply (.cons hleft (.cons hn .nil))
                (hR.join (hR.span hleft) (hR.span hn)))
          | false => exact ⟨.cons (.binary hleft) hframes, hn⟩

theorem like_finish (hframes : List.Forall₂ (Frame.Like place R) frames frames') (hn : R n n') :
    (finish frames n).Like place R (finish frames' n') := by
  have hclose := Frame.like_close hR 0 hframes hn
  unfold finish
  generalize Frame.close 0 frames n = x at hclose
  generalize Frame.close 0 frames' n' = x' at hclose
  obtain ⟨fs, m⟩ := x
  obtain ⟨fs', m'⟩ := x'
  cases hclose.fst with
  | nil => exact .done hclose.snd
  | cons _ _ => exact .unclosed

theorem like_continueWith (hframes : List.Forall₂ (Frame.Like place R) frames frames')
    (hn : R n n') {t t' : Token} (hkind : t.kind = t'.kind) (hspan : place t.span t'.span) :
    (continueWith frames n t).Like place R (continueWith frames' n' t') := by
  unfold continueWith
  rw [← hkind]
  cases t.kind with
  | operator op =>
      dsimp only
      cases op.precedence with
      | some strength =>
          have hclose := Frame.like_close hR strength hframes hn
          exact .operand (.cons (.binary hclose.snd) hclose.fst)
      | none => exact like_finish hR hframes hn
  | parenClose =>
      have hclose := Frame.like_close hR 0 hframes hn
      dsimp only
      generalize Frame.close 0 frames n = x at hclose
      generalize Frame.close 0 frames' n' = x' at hclose
      obtain ⟨fs, m⟩ := x
      obtain ⟨fs', m'⟩ := x'
      cases hclose.fst with
      | nil => exact .done hclose.snd
      | cons hframe hrest =>
          cases hframe with
          | paren hplace =>
              have henclosed := hR.withSpan hclose.snd (hR.join hplace hspan)
              have hsettle := Frame.like_settle hR hrest henclosed
              exact .operator hsettle.fst hsettle.snd
          | prefixed _ => exact .done hclose.snd
          | binary _ => exact .done hclose.snd
  | _ => exact like_finish hR hframes hn

end Frames

variable {L}

theorem agree_operandStart (haliases : aliases.Like L aliases') {t t' : Token} (ht : t.Like L t')
    (hknown : t.kind = .name → L.Knows t.chars) :
    L.Agree (Sum.LiftRel (Frame.Like L.place (Node.Like L)) (Node.Like L)) (operandStart aliases t)
      (operandStart aliases' t') := by
  have hunexpected := like_unexpected ht.stopsLike "an operand"
  unfold operandStart
  dsimp only
  rw [← ht.kind]
  cases hkind : t.kind with
  | number base =>
      refine (agree_numberOf ht base).map fun v v' hv => ?_
      rw [hv]
      exact .inr (.number ht.place)
  | name => exact (agree_nameOf haliases ht (hknown hkind)).map fun _ _ h => .inr h
  | parenOpen => exact .ok (.inl (.paren ht.place))
  | register r => exact .error ⟨.registerInExpression, ht.place⟩
  | operator op =>
      dsimp only
      cases op.asPrefix with
      | some op => exact .ok (.inl (.prefixed ht.place))
      | none => exact .error hunexpected
  | _ => exact .error hunexpected

variable {frames frames' : List Frame} {n n' : Node}

/-- The induction is on the tokens; what is open and the operand just read are arbitrary. -/
theorem agree_readFrom (haliases : aliases.Like L aliases') {stop stop' : Token}
    (hstop : stop.StopsLike L stop')
    (hframes : List.Forall₂ (Frame.Like L.place (Node.Like L)) frames frames')
    {operand operand' : Option Node} (hoperand : Option.Rel (Node.Like L) operand operand')
    {ts ts' : List Token} (hts : List.Forall₂ (Token.Like L) ts ts') (hknown : L.KnowsNames ts) :
    L.Agree (L.Before (Node.Like L)) (readFrom aliases stop frames operand ts)
      (readFrom aliases' stop' frames' operand' ts') := by
  induction hts generalizing frames frames' operand operand' with
  | nil =>
      cases hoperand with
      | none => exact .error (like_unexpected hstop _)
      | @some m m' hm =>
          have hfinish := like_finish L.congruence hframes hm
          unfold readFrom
          dsimp only
          generalize finish frames m = x at hfinish
          generalize finish frames' m' = x' at hfinish
          cases hfinish with
          | done h => exact .ok ⟨h, .nil⟩
          | _ => exact .error (like_unexpected hstop _)
  | @cons t t' ts ts' ht hts ih =>
      cases hoperand with
      | none =>
          have hstart := agree_operandStart haliases ht (hknown t List.mem_cons_self)
          unfold readFrom
          dsimp only
          generalize operandStart aliases t = x at hstart
          generalize operandStart aliases' t' = x' at hstart
          cases hstart with
          | error h => exact .error h
          | ok h =>
              cases h with
              | inl h => exact ih (.cons h hframes) .none hknown.tail
              | inr h =>
                  have hsettle := Frame.like_settle L.congruence hframes h
                  exact ih hsettle.fst (.some hsettle.snd) hknown.tail
      | @some m m' hm =>
          have hgo := like_continueWith L.congruence hframes hm ht.kind ht.place
          unfold readFrom
          dsimp only
          generalize continueWith frames m t = x at hgo
          generalize continueWith frames' m' t' = x' at hgo
          cases hgo with
          | operand h => exact ih h .none hknown.tail
          | operator h h' => exact ih h (.some h') hknown.tail
          | done h => exact .ok ⟨h, .cons ht hts⟩
          | unclosed => exact .error (like_unexpected ht.stopsLike _)

/-! ### Operands -/

/-- Whether the operand is a keyword, which is no name: a word of its own, or one in brackets. -/
def isKeywordOperand : List Token → Bool
  | [] => false
  | [t] => t.kind = .bracketOpen || t.kind = .name && (Keyword.ofWord? t.chars).isSome
  | t :: _ => t.kind = .bracketOpen

/-- The names in an operand. -/
def operandNames (ts : List Token) : List Token :=
  if isKeywordOperand ts then [] else ts.filter (·.kind = .name)

variable (L)

/-- The pieces have tokens that are alike, and end alike. -/
structure Piece.Like (p p' : Piece) : Prop where
  tokens : List.Forall₂ (Token.Like L) p.tokens p'.tokens
  stop : p.stop.StopsLike L p'.stop

variable {L}

theorem agree_readTree (haliases : aliases.Like L aliases') {p p' : Piece} (hp : p.Like L p')
    (hknown : L.KnowsNames p.tokens) :
    L.Agree (L.Before (Node.Like L)) (readTree aliases p) (readTree aliases' p') :=
  agree_readFrom haliases hp.stop .nil .none hp.tokens hknown

theorem agree_readValue (haliases : aliases.Like L aliases') {p p' : Piece} (hp : p.Like L p')
    (hknown : L.KnowsNames p.tokens) :
    L.Agree (L.Before (Node.Like L)) (readValue aliases p) (readValue aliases' p') := by
  have hmissing : (p.tokens.isEmpty = true ∧ p.stop.kind ≠ .comma) ↔
      (p'.tokens.isEmpty = true ∧ p'.stop.kind ≠ .comma) := by
    rw [isEmpty_eq_of_forall₂ hp.tokens, ne_eq, ne_eq, hp.stop.kind_iff rfl]
  unfold readValue
  by_cases h : p.tokens.isEmpty = true ∧ p.stop.kind ≠ .comma
  · rw [if_pos h, if_pos (hmissing.mp h)]
    exact .error (like_unexpected hp.stop _)
  · rw [if_neg h, if_neg (mt hmissing.mpr h)]
    exact agree_readTree haliases hp hknown

theorem agree_wordOperand (haliases : aliases.Like L aliases') {t t' : Token} (ht : t.Like L t')
    (hknown : Keyword.ofWord? t.chars = none → L.Knows t.chars) :
    L.Agree (Node.Like L) (wordOperand aliases t) (wordOperand aliases' t') := by
  unfold wordOperand
  rw [← (L.spelledAlike ht.word).keyword]
  cases hkeyword : Keyword.ofWord? t.chars with
  | some k => exact .ok (.keyword ht.place)
  | none =>
      dsimp only
      rcases (agree_identifierOf ht (hknown hkeyword)).results with
        ⟨i, i', hi, hi', h⟩ | ⟨d, d', hd, hd', h⟩
      · rw [hi, hi']
        dsimp only
        rw [haliases.get? h]
        split
        · exact .ok (.register ht.place)
        · exact .ok (.name h ht.place)
      · rw [hd, hd']
        exact .error h

theorem agree_bracketOperand {stop stop' bracket bracket' : Token}
    (hstop : stop.StopsLike L stop') (hbracket : bracket.Like L bracket') {ts ts' : List Token}
    (hts : List.Forall₂ (Token.Like L) ts ts') :
    L.Agree (L.Before (Node.Like L)) (bracketOperand stop bracket ts)
      (bracketOperand stop' bracket' ts') := by
  have hinner := Token.stopsLike_head hstop hts
  have hlast := Token.stopsLike_head hstop (forall₂_tail hts)
  unfold bracketOperand
  dsimp only
  have hindex : ((ts.head?.getD stop).kind = .name ∧
        Keyword.ofWord? (ts.head?.getD stop).chars = some .index) ↔
      ((ts'.head?.getD stop').kind = .name ∧
        Keyword.ofWord? (ts'.head?.getD stop').chars = some .index) := by
    rw [← hinner.kind_iff rfl]
    refine and_congr_right fun hname => ?_
    rw [(L.spelledAlike (hinner.like rfl hname).word).keyword]
  by_cases h : (ts.head?.getD stop).kind = .name ∧
      Keyword.ofWord? (ts.head?.getD stop).chars = some .index
  · rw [if_pos h, if_pos (hindex.mp h)]
    by_cases hclose : (ts.tail.head?.getD stop).kind = .bracketClose
    · rw [if_pos hclose, if_pos ((hlast.kind_iff rfl).mp hclose)]
      exact .ok ⟨.keyword (L.place_join hbracket.place hlast.place),
        forall₂_tail (forall₂_tail hts)⟩
    · rw [if_neg hclose, if_neg (mt (hlast.kind_iff rfl).mpr hclose)]
      exact .error (like_unexpected hlast _)
  · rw [if_neg h, if_neg (mt hindex.mpr h)]
    exact .error (like_unexpected hinner _)

/-- The names of an operand that is no keyword. -/
theorem knowsNames_of_operandNames {ts : List Token}
    (hknown : ∀ t ∈ operandNames ts, L.Knows t.chars) (hts : isKeywordOperand ts = false) :
    L.KnowsNames ts := by
  intro t ht hname
  refine hknown t ?_
  rw [operandNames, hts, if_neg Bool.false_ne_true]
  exact List.mem_filter.mpr ⟨ht, decide_eq_true hname⟩

theorem isKeywordOperand_of_kind {t : Token} {ts : List Token} (hopen : t.kind ≠ .bracketOpen)
    (hname : t.kind ≠ .name) : isKeywordOperand (t :: ts) = false := by
  unfold isKeywordOperand
  cases ts with
  | nil => simp [hopen, hname]
  | cons u us => simp [hopen]

theorem agree_readOperand (haliases : aliases.Like L aliases') {p p' : Piece} (hp : p.Like L p')
    (hknown : ∀ t ∈ operandNames p.tokens, L.Knows t.chars) :
    L.Agree (L.Before (Node.Like L)) (readOperand aliases p) (readOperand aliases' p') := by
  have htree : isKeywordOperand p.tokens = false →
      L.Agree (L.Before (Node.Like L)) (readTree aliases p) (readTree aliases' p') := fun h =>
    agree_readTree haliases hp (knowsNames_of_operandNames hknown h)
  obtain ⟨ts, stop⟩ := p
  obtain ⟨ts', stop'⟩ := p'
  have htokens := hp.tokens
  dsimp only at htokens htree hknown
  unfold readOperand
  dsimp only
  cases htokens with
  | nil => exact htree rfl
  | @cons t t' ts ts' ht hts =>
      dsimp only
      rw [← ht.kind]
      cases hkind : t.kind with
      | register r => exact .ok ⟨.register ht.place, hts⟩
      | bracketOpen => exact agree_bracketOperand hp.stop ht hts
      | name =>
          cases hts with
          | nil =>
              refine Together.map (agree_wordOperand haliases ht fun hkeyword => ?_)
                fun _ _ h => ⟨h, .nil⟩
              refine hknown t ?_
              rw [operandNames, isKeywordOperand, hkind, hkeyword]
              exact List.mem_filter.mpr ⟨List.mem_cons_self, decide_eq_true hkind⟩
          | cons _ _ => exact htree (by simp [isKeywordOperand, hkind])
      | _ =>
          exact htree (isKeywordOperand_of_kind (by rw [hkind]; exact fun h => by cases h)
            (by rw [hkind]; exact fun h => by cases h))

/-! ### Lists of operands -/

theorem like_pieces {stop stop' : Token} (hstop : stop.StopsLike L stop') {ts ts' : List Token}
    (hts : List.Forall₂ (Token.Like L) ts ts') :
    List.Forall₂ (Piece.Like L) (pieces stop ts) (pieces stop' ts') := by
  induction hts with
  | nil => exact .cons ⟨.nil, hstop⟩ .nil
  | @cons t t' ts ts' ht _ ih =>
      rw [pieces, pieces, ← ht.kind]
      by_cases hcomma : t.kind = .comma
      · rw [if_pos hcomma, if_pos hcomma]
        exact .cons ⟨.nil, ht.stopsLike⟩ ih
      · rw [if_neg hcomma, if_neg hcomma]
        generalize pieces stop ts = ps at ih
        generalize pieces stop' ts' = ps' at ih
        cases ih with
        | nil => exact .nil
        | cons hp hps => exact .cons ⟨.cons ht hp.tokens, hp.stop⟩ hps

variable {read read' : Piece → Except Diagnostic (Node × List Token)}

theorem agree_readPieces {ps ps' : List Piece}
    (h : List.Forall₂ (fun p p' => L.Agree (L.Before (Node.Like L)) (read p) (read' p')) ps ps') :
    L.Agree (L.Behind (List.Forall₂ (Node.Like L))) (readPieces read ps)
      (readPieces read' ps') := by
  induction h with
  | nil => exact .ok ⟨.nil, .none⟩
  | @cons p p' ps ps' hp _ ih =>
      rw [readPieces, readPieces]
      rcases hp.results with ⟨⟨n, ts⟩, ⟨n', ts'⟩, hn, hn', hread⟩ | ⟨d, d', hd, hd', h⟩
      · rw [hn, hn']
        have hrest := hread.snd
        dsimp only at hrest
        cases hrest with
        | cons ht _ => exact .ok ⟨.cons hread.fst .nil, .some ht⟩
        | nil =>
            dsimp only
            rcases ih.results with ⟨⟨ns, r⟩, ⟨ns', r'⟩, hns, hns', hlist⟩ | ⟨d, d', hd, hd', h⟩
            · rw [hns, hns']
              exact .ok ⟨.cons hread.fst hlist.fst, hlist.snd⟩
            · rw [hd, hd']
              exact .error h
      · rw [hd, hd']
        exact .error h

theorem like_firstPiece {stop stop' : Token} (hstop : stop.StopsLike L stop')
    {ts ts' : List Token} (hts : List.Forall₂ (Token.Like L) ts ts') :
    (firstPiece stop ts).1.Like L (firstPiece stop' ts').1 ∧
      Option.Rel (Token.Like L) (firstPiece stop ts).2 (firstPiece stop' ts').2 := by
  have hcomma : ∀ t t' : Token, t.Like L t' →
      decide (t.kind = .comma) = decide (t'.kind = .comma) :=
    fun t t' ht => by rw [ht.kind]
  have hfind := rel_find? hcomma hts
  have htaken : List.Forall₂ (Token.Like L) (ts.takeWhile (·.kind ≠ .comma))
      (ts'.takeWhile (·.kind ≠ .comma)) := by
    clear hfind
    induction hts with
    | nil => exact .nil
    | @cons t t' ts ts' ht _ ih =>
        rw [List.takeWhile_cons, List.takeWhile_cons, ht.kind]
        split
        · exact .cons ht ih
        · exact .nil
  unfold firstPiece
  generalize ts.find? (fun t => decide (t.kind = .comma)) = x at hfind
  generalize ts'.find? (fun t => decide (t.kind = .comma)) = x' at hfind
  cases hfind with
  | none => exact ⟨⟨hts, hstop⟩, .none⟩
  | some h => exact ⟨⟨htaken, h.stopsLike⟩, .some h⟩

theorem agree_readSingle {stop stop' : Token} (hstop : stop.StopsLike L stop')
    {ts ts' : List Token} (hts : List.Forall₂ (Token.Like L) ts ts')
    (hread : ∀ p', (firstPiece stop ts).1.Like L p' →
      L.Agree (L.Before (Node.Like L)) (read (firstPiece stop ts).1) (read' p')) :
    L.Agree (L.Behind (Node.Like L)) (readSingle read stop ts) (readSingle read' stop' ts') := by
  obtain ⟨hpiece, hcomma⟩ := like_firstPiece hstop hts
  exact (hread _ hpiece).map fun _ _ h => ⟨h.fst, rel_or (rel_head? h.snd) hcomma⟩

/-! ### Instructions -/

/-- No shape tells the trees apart. -/
def Node.Fits (n n' : Node) : Prop := ∀ shape : Shape, shape.accepts n = shape.accepts n'

theorem Node.Like.fits (hn : n.Like L n') : n.Fits n' := by
  intro shape
  cases hn <;> cases shape <;> rfl

theorem Form.accepts_congr (form : Form) {ns ns' : List Node}
    (hns : List.Forall₂ Node.Fits ns ns') : form.accepts ns = form.accepts ns' := by
  have hall : ∀ slots : List Slot,
      ((slots.zip ns).all fun x => x.1.shape.accepts x.2) =
        (slots.zip ns').all fun x => x.1.shape.accepts x.2 := by
    induction hns with
    | nil => exact fun slots => rfl
    | cons hn _ ih =>
        intro slots
        cases slots with
        | nil => rfl
        | cons slot slots =>
            rw [List.zip_cons_cons, List.zip_cons_cons, List.all_cons, List.all_cons, ih slots]
            exact congrArg (· && _) (hn slot.shape)
  unfold Form.accepts
  rw [hns.length_eq]
  exact congrArg (_ && ·) (hall form.slots)

theorem matching_congr {w w' : List Char} (hw : SpelledAlike w w') {ns ns' : List Node}
    (hns : List.Forall₂ Node.Fits ns ns') : matching w ns = matching w' ns' := by
  unfold matching
  rw [hw.formsNamed]
  exact List.filter_congr fun form _ => form.accepts_congr hns

theorem agree_selectForm {t t' : Token} (ht : t.Like L t') {ns ns' : List Node}
    (hns : List.Forall₂ (Node.Like L) ns ns') :
    L.Agree Eq (selectForm t ns) (selectForm t' ns') := by
  have hspan : L.place (ns.getLast?.elim t.span fun n => t.span.join n.span)
      (ns'.getLast?.elim t'.span fun n => t'.span.join n.span) := by
    have hlast := rel_getLast? hns
    generalize ns.getLast? = x at hlast
    generalize ns'.getLast? = x' at hlast
    cases hlast with
    | none => exact ht.place
    | some h => exact L.place_join ht.place h.place
  unfold selectForm
  dsimp only
  rw [matching_congr (L.spelledAlike ht.word) (hns.imp fun _ _ => Node.Like.fits)]
  split
  · exact .ok rfl
  · exact .error ⟨.noForm ht.word, hspan⟩
  · exact .error ⟨.ambiguousForm ht.word, hspan⟩

variable {stop stop' : Token} {ts ts' : List Token}

theorem agree_readOperands (haliases : aliases.Like L aliases') (hstop : stop.StopsLike L stop')
    (hts : List.Forall₂ (Token.Like L) ts ts')
    (hknown : ∀ p ∈ pieces stop ts, ∀ t ∈ operandNames p.tokens, L.Knows t.chars) :
    L.Agree (L.Behind (List.Forall₂ (Node.Like L))) (readOperands aliases stop ts)
      (readOperands aliases' stop' ts') := by
  have hread : ∀ {ps ps' : List Piece}, List.Forall₂ (Piece.Like L) ps ps' →
      (∀ p ∈ ps, ∀ t ∈ operandNames p.tokens, L.Knows t.chars) →
      List.Forall₂ (fun p p' => L.Agree (L.Before (Node.Like L)) (readOperand aliases p)
        (readOperand aliases' p')) ps ps' := by
    intro ps ps' hps hnames
    induction hps with
    | nil => exact .nil
    | cons hp _ ih =>
        exact .cons (agree_readOperand haliases hp (hnames _ List.mem_cons_self))
          (ih fun p hp => hnames p (List.mem_cons_of_mem _ hp))
  unfold readOperands
  rw [← isEmpty_eq_of_forall₂ hts]
  split
  · exact .ok ⟨.nil, .none⟩
  · exact agree_readPieces (hread (like_pieces hstop hts) hknown)

/-- Mnemonics that are alike, in front of operands that are read alike. -/
theorem agree_readInstruction_of_agree {t t' : Token} (ht : t.Like L t')
    (hoperands : L.Agree (L.Behind (List.Forall₂ (Node.Like L))) (readOperands aliases stop ts)
      (readOperands aliases' stop' ts')) :
    L.Agree (L.Behind (Body.Like L)) (readInstruction aliases stop t ts)
      (readInstruction aliases' stop' t' ts') := by
  unfold readInstruction
  rw [(L.spelledAlike ht.word).isMnemonic]
  split
  · refine hoperands.bind fun x x' hx => ?_
    refine (agree_selectForm ht hx.fst).bind fun form form' hform => ?_
    rw [hform]
    exact .ok ⟨.instruction hx.fst, hx.snd⟩
  · exact .error ⟨.unknownMnemonic ht.word, ht.place⟩

theorem agree_readInstruction (haliases : aliases.Like L aliases')
    (hstop : stop.StopsLike L stop') {t t' : Token} (ht : t.Like L t')
    (hts : List.Forall₂ (Token.Like L) ts ts')
    (hknown : ∀ p ∈ pieces stop ts, ∀ t ∈ operandNames p.tokens, L.Knows t.chars) :
    L.Agree (L.Behind (Body.Like L)) (readInstruction aliases stop t ts)
      (readInstruction aliases' stop' t' ts') :=
  agree_readInstruction_of_agree ht (agree_readOperands haliases hstop hts hknown)

/-! ### Directives -/

variable (L)

/-- Both tokens end the code of a line. -/
structure Token.EndsLike (t t' : Token) : Prop where
  kind : L.ending t.kind t'.kind
  place : L.place t.span t'.span

variable {L}

theorem Token.EndsLike.stopsLike {t t' : Token} (h : t.EndsLike L t') : t.StopsLike L t' :=
  Or.inr ⟨h.kind, h.place⟩

/-- A token that is asked for is the first one, and not what ends the code. -/
theorem agree_expect {kind : TokenKind} (hkind : kind.endsCode = false) (expected : String)
    (hstop : stop.EndsLike L stop') (hts : List.Forall₂ (Token.Like L) ts ts') :
    L.Agree (fun x x' => ts = x.1 :: x.2 ∧ x.1.kind = kind ∧ L.Before (Token.Like L) x x')
      (expect kind expected stop ts) (expect kind expected stop' ts') := by
  unfold expect
  dsimp only
  cases hts with
  | nil =>
      have hne : stop.kind ≠ kind := by
        rintro rfl
        rw [(L.ends hstop.kind).1] at hkind
        cases hkind
      have hne' : stop'.kind ≠ kind := mt (hstop.stopsLike.kind_iff hkind).mpr hne
      rw [List.head?_nil, Option.getD_none, Option.getD_none, if_neg hne, if_neg hne']
      exact .error (like_unexpected hstop.stopsLike _)
  | @cons t t' ts ts' ht hts =>
      rw [List.head?_cons, List.head?_cons, Option.getD_some, Option.getD_some, ← ht.kind]
      split
      · rename_i hkind'
        exact .ok ⟨rfl, hkind', ht, hts⟩
      · exact .error (like_unexpected ht.stopsLike _)

variable {scope scope' : Scope}

theorem agree_declare (hscope : scope.Like L scope') (kind : SymbolKind) {a a' : Label}
    (ha : a.Like L a') :
    L.Agree (Scope.Like L) (scope.declare kind a) (scope'.declare kind a') := by
  have hget := hscope.symbols.get? ha.name
  unfold Scope.declare SymbolTable.declare
  generalize scope.symbols.get? a.name = x at hget
  generalize scope'.symbols.get? a'.name = x' at hget
  cases hget with
  | none =>
      refine .ok ⟨?_, hscope.aliases⟩
      exact List.rel_append hscope.symbols (.cons ⟨ha.name, rfl, ha.place, rfl, rfl⟩ .nil)
  | some hs => exact .error ⟨.duplicateSymbol ha.name hs.place, ha.place⟩

theorem Likeness.KnowsNames.firstPiece (hknown : L.KnowsNames ts) (stop : Token) :
    L.KnowsNames (Asm.firstPiece stop ts).1.tokens :=
  fun t ht => hknown t (mem_firstPiece ht)

theorem agree_readConstant (hscope : scope.Like L scope') (hstop : stop.EndsLike L stop')
    (hts : List.Forall₂ (Token.Like L) ts ts') (hknown : L.KnowsNames ts) :
    L.Agree (Pairs (Scope.Like L) (L.Behind (Body.Like L))) (readConstant scope stop ts)
      (readConstant scope' stop' ts') := by
  unfold readConstant
  refine (agree_expect rfl _ hstop hts).bind fun x x' ⟨htaken, hname, hx⟩ => ?_
  obtain ⟨t, us⟩ := x
  obtain ⟨t', us'⟩ := x'
  subst htaken
  refine (agree_identifierOf hx.fst (hknown _ List.mem_cons_self hname)).bind fun i i' hi => ?_
  refine (agree_expect rfl _ hstop hx.snd).bind fun y y' ⟨hcomma, _, hy⟩ => ?_
  obtain ⟨c, vs⟩ := y
  obtain ⟨c', vs'⟩ := y'
  have hknown' : L.KnowsNames vs := (hcomma ▸ hknown.tail : L.KnowsNames (c :: vs)).tail
  refine (agree_readSingle hstop.stopsLike hy.snd fun p' hp =>
    agree_readTree hscope.aliases hp (hknown'.firstPiece stop)).bind fun z z' hz => ?_
  have hlabel : Label.Like L ⟨i, t.span⟩ ⟨i', t'.span⟩ := ⟨hi, hx.fst.place⟩
  refine (agree_declare hscope .constant hlabel).bind fun s s' hs => ?_
  exact .ok ⟨hs, .constant hlabel hz.fst, hz.snd⟩

theorem agree_readAlias (hscope : scope.Like L scope') (hstop : stop.EndsLike L stop')
    (hts : List.Forall₂ (Token.Like L) ts ts') (hknown : L.KnowsNames ts) :
    L.Agree (L.Behind (Scope.Like L)) (readAlias scope stop ts) (readAlias scope' stop' ts') := by
  unfold readAlias
  refine (agree_expect rfl _ hstop hts).bind fun x x' ⟨htaken, hname, hx⟩ => ?_
  obtain ⟨t, us⟩ := x
  obtain ⟨t', us'⟩ := x'
  subst htaken
  have ht : t.Like L t' := hx.fst
  refine (agree_identifierOf ht (hknown _ List.mem_cons_self hname)).bind fun i i' hi => ?_
  dsimp only
  rw [← (L.spelledAlike ht.word).keyword]
  by_cases hkeyword : (Keyword.ofWord? t.chars).isSome = true
  · rw [if_pos hkeyword, if_pos hkeyword]
    exact .error ⟨.reservedAlias hi, ht.place⟩
  · rw [if_neg hkeyword, if_neg hkeyword]
    refine (agree_expect rfl _ hstop hx.snd).bind fun y y' ⟨_, _, hy⟩ => ?_
    obtain ⟨c, vs⟩ := y
    obtain ⟨c', vs'⟩ := y'
    have hvs : List.Forall₂ (Token.Like L) vs vs' := hy.snd
    have hregister := Token.stopsLike_head hstop.stopsLike hvs
    dsimp only
    generalize vs.head?.getD stop = r at hregister
    generalize vs'.head?.getD stop' = r' at hregister
    split
    · rename_i number hr
      rw [(hregister.kind_iff rfl).mp hr]
      dsimp only
      rw [← hscope.aliases.get? hi]
      split
      · exact .error ⟨.duplicateAlias hi, ht.place⟩
      · exact .ok ⟨⟨hscope.symbols, .cons ⟨hi, rfl⟩ hscope.aliases⟩, rel_head? (forall₂_tail hvs)⟩
    · rename_i hr
      split
      · rename_i number hr'
        exact absurd ((hregister.kind_iff rfl).mpr hr') (hr number)
      · exact .error (like_unexpected hregister _)

theorem agree_readOnly (haliases : aliases.Like L aliases') (hstop : stop.EndsLike L stop')
    (hts : List.Forall₂ (Token.Like L) ts ts') (hknown : L.KnowsNames ts) {make : Node → Body}
    (hmake : ∀ {n n' : Node}, n.Like L n' → (make n).Like L (make n')) :
    L.Agree (L.Behind (Option.Rel (Body.Like L))) (readOnly aliases stop make ts)
      (readOnly aliases' stop' make ts') := by
  unfold readOnly
  refine (agree_readSingle hstop.stopsLike hts fun p' hp =>
    agree_readValue haliases hp (hknown.firstPiece stop)).bind fun x x' hx => ?_
  exact .ok ⟨.some (hmake hx.fst), hx.snd⟩

theorem Likeness.KnowsNames.piece {p : Piece} (hknown : L.KnowsNames ts)
    (hp : p ∈ pieces stop ts) : L.KnowsNames p.tokens :=
  fun t ht => hknown t (mem_of_mem_pieces hp ht)

theorem agree_readAll (haliases : aliases.Like L aliases') (hstop : stop.EndsLike L stop')
    (hts : List.Forall₂ (Token.Like L) ts ts') (hknown : L.KnowsNames ts)
    {make : List Node → Body}
    (hmake : ∀ {ns ns' : List Node}, List.Forall₂ (Node.Like L) ns ns' →
      (make ns).Like L (make ns')) :
    L.Agree (L.Behind (Option.Rel (Body.Like L))) (readAll aliases stop make ts)
      (readAll aliases' stop' make ts') := by
  have hread : ∀ {ps ps' : List Piece}, List.Forall₂ (Piece.Like L) ps ps' →
      (∀ p ∈ ps, L.KnowsNames p.tokens) →
      List.Forall₂ (fun p p' => L.Agree (L.Before (Node.Like L)) (readValue aliases p)
        (readValue aliases' p')) ps ps' := by
    intro ps ps' hps hnames
    induction hps with
    | nil => exact .nil
    | cons hp _ ih =>
        exact .cons (agree_readValue haliases hp (hnames _ List.mem_cons_self))
          (ih fun p hp => hnames p (List.mem_cons_of_mem _ hp))
  unfold readAll
  refine (agree_readPieces (hread (like_pieces hstop.stopsLike hts) fun p hp =>
    hknown.piece hp)).bind fun x x' hx => ?_
  exact .ok ⟨.some (hmake hx.fst), hx.snd⟩

theorem ofToken?_like {t t' : Token} (ht : t.Like L t') :
    Directive.ofToken? t = Directive.ofToken? t' := by
  unfold Directive.ofToken?
  rw [((L.spelledAlike ht.word).drop 1).lower]

theorem agree_readDirective (hscope : scope.Like L scope') (hstop : stop.EndsLike L stop')
    {name name' : Token} (hname : name.Like L name') (hts : List.Forall₂ (Token.Like L) ts ts')
    (hknown : L.KnowsNames ts) :
    L.Agree (Pairs (Scope.Like L) (L.Behind (Option.Rel (Body.Like L))))
      (readDirective scope stop name ts) (readDirective scope' stop' name' ts') := by
  have haliases := hscope.aliases
  unfold readDirective
  rw [← ofToken?_like hname]
  cases Directive.ofToken? name with
  | none => exact .error ⟨.unknownDirective, hname.place⟩
  | some directive =>
      cases directive with
      | constant =>
          exact (agree_readConstant hscope hstop hts hknown).map fun x x' hx =>
            ⟨hx.fst, .some hx.snd.fst, hx.snd.snd⟩
      | registerAlias =>
          exact (agree_readAlias hscope hstop hts hknown).map fun x x' hx =>
            ⟨hx.fst, .none, hx.snd⟩
      | origin =>
          exact (agree_readOnly haliases hstop hts hknown .origin).map fun x x' hx => ⟨hscope, hx⟩
      | bytes =>
          exact (agree_readAll haliases hstop hts hknown .bytes).map fun x x' hx => ⟨hscope, hx⟩
      | words =>
          exact (agree_readAll haliases hstop hts hknown .words).map fun x x' hx => ⟨hscope, hx⟩
      | reserve =>
          exact (agree_readOnly haliases hstop hts hknown .reserve).map fun x x' hx => ⟨hscope, hx⟩

/-! ### Lines -/

/-- The names in the operands of an instruction or directive. -/
def bodyNames (stop : Token) : List Token → List Token
  | [] => []
  | t :: ts =>
      match t.kind with
      | .name => (pieces stop ts).flatMap fun p => operandNames p.tokens
      | .directive => ts.filter (·.kind = .name)
      | _ => []

/-- The names in a line: its label, and those in operands. -/
def Line.names (l : Line) : List Token :=
  (splitLabel l.tokens).1.toList ++ bodyNames l.stop (splitLabel l.tokens).2

variable (L)

/-- The lines have tokens that are alike, and end alike. -/
structure Line.Like (l l' : Line) : Prop where
  tokens : List.Forall₂ (Token.Like L) l.tokens l'.tokens
  stop : l.stop.EndsLike L l'.stop

variable {L}

theorem agree_readBody (hscope : scope.Like L scope') (hstop : stop.EndsLike L stop')
    (hts : List.Forall₂ (Token.Like L) ts ts') (hknown : ∀ t ∈ bodyNames stop ts, L.Knows t.chars) :
    L.Agree (Pairs (Scope.Like L) (L.Behind (Option.Rel (Body.Like L)))) (readBody scope stop ts)
      (readBody scope' stop' ts') := by
  cases hts with
  | nil => exact .ok ⟨hscope, .none, .none⟩
  | @cons t t' ts ts' ht hts =>
      unfold readBody
      dsimp only
      rw [← ht.kind]
      cases hkind : t.kind with
      | name =>
          refine (agree_readInstruction hscope.aliases hstop.stopsLike ht hts fun p hp u hu =>
            hknown u ?_).map fun x x' hx => ⟨hscope, .some hx.fst, hx.snd⟩
          rw [bodyNames, hkind]
          exact List.mem_flatMap.mpr ⟨p, hp, hu⟩
      | directive =>
          refine agree_readDirective hscope hstop ht hts fun u hu hname => hknown u ?_
          rw [bodyNames, hkind]
          exact List.mem_filter.mpr ⟨hu, decide_eq_true hname⟩
      | _ => exact .ok ⟨hscope, .none, .some ht⟩

theorem like_splitLabel (hts : List.Forall₂ (Token.Like L) ts ts') :
    Pairs (Option.Rel (Token.Like L)) (List.Forall₂ (Token.Like L)) (splitLabel ts)
      (splitLabel ts') := by
  cases hts with
  | nil => exact ⟨.none, .nil⟩
  | cons ht hts =>
      cases hts with
      | nil => exact ⟨.none, .cons ht .nil⟩
      | cons hu hts =>
          rw [splitLabel, splitLabel, ← ht.kind, ← hu.kind]
          split
          · exact ⟨.some ht, hts⟩
          · exact ⟨.none, .cons ht (.cons hu hts)⟩

theorem agree_declareLabel (hscope : scope.Like L scope') {t t' : Token} (ht : t.Like L t')
    (hknown : L.Knows t.chars) :
    L.Agree (Pairs (Scope.Like L) (Pairs (List.Forall₂ (Diagnostic.Like L))
      (Option.Rel (Label.Like L)))) (declareLabel scope t) (declareLabel scope' t') := by
  unfold declareLabel
  rw [← (L.spelledAlike ht.word).keyword]
  by_cases hkeyword : (Keyword.ofWord? t.chars).isSome = true
  · rw [if_pos hkeyword, if_pos hkeyword]
    exact .error ⟨.reservedLabel ht.word, ht.place⟩
  · rw [if_neg hkeyword, if_neg hkeyword]
    refine (agree_identifierOf ht hknown).bind fun i i' hi => ?_
    have hlabel : Label.Like L ⟨i, t.span⟩ ⟨i', t'.span⟩ := ⟨hi, ht.place⟩
    rcases (agree_declare hscope .label hlabel).results with
      ⟨s, s', hs, hs', h⟩ | ⟨d, d', hd, hd', h⟩
    · rw [hs, hs']
      exact .ok ⟨h, .nil, .some hlabel⟩
    · rw [hd, hd']
      exact .ok ⟨hscope, .cons h .nil, .none⟩

variable (L)

/-- Two lines leave behind what is alike: names, diagnostics, and a statement of one label and body,
or none. -/
structure LineResult.Like (l l' : Line) (r r' : LineResult) : Prop where
  scope : r.scope.Like L r'.scope
  diagnostics : List.Forall₂ (Diagnostic.Like L) r.diagnostics r'.diagnostics
  statement : r.statement = none ∧ r'.statement = none ∨
    ∃ label label' body body', Option.Rel (Label.Like L) label label' ∧
      Option.Rel (Body.Like L) body body' ∧ r.statement = statementOf? l label body ∧
      r'.statement = statementOf? l' label' body'

variable {L}

theorem like_parseRest (hscope : scope.Like L scope') {l l' : Line}
    {label label' : Option Label} (hlabel : Option.Rel (Label.Like L) label label')
    {reports reports' : List Diagnostic}
    (hreports : List.Forall₂ (Diagnostic.Like L) reports reports')
    (hbody : L.Agree (Pairs (Scope.Like L) (L.Behind (Option.Rel (Body.Like L))))
      (readBody scope l.stop ts) (readBody scope' l'.stop ts')) :
    LineResult.Like L l l' (parseRest scope l label reports ts)
      (parseRest scope' l' label' reports' ts') := by
  unfold parseRest
  rcases hbody.results with
    ⟨⟨s, b, r⟩, ⟨s', b', r'⟩, hs, hs', h⟩ | ⟨d, d', hd, hd', h⟩
  · rw [hs, hs']
    have hbehind := h.snd.snd
    dsimp only at hbehind
    cases hbehind with
    | some ht =>
        exact ⟨h.fst, List.rel_append hreports (.cons (like_unexpected ht.stopsLike _) .nil),
          Or.inl ⟨rfl, rfl⟩⟩
    | none =>
        exact ⟨h.fst, hreports, Or.inr ⟨label, label', b, b', hlabel, h.snd.fst, rfl, rfl⟩⟩
  · rw [hd, hd']
    exact ⟨hscope, List.rel_append hreports (.cons h .nil), Or.inl ⟨rfl, rfl⟩⟩

/-- A label is no alias. -/
theorem aliases_declareLabel {t : Token} {reports : List Diagnostic} {label : Option Label}
    (h : declareLabel scope t = .ok (scope', reports, label)) :
    scope'.aliases = scope.aliases := by
  unfold declareLabel at h
  split at h
  · cases h
  · obtain ⟨name, -, h⟩ := bind_eq_ok h
    unfold Scope.declare at h
    cases hsymbols : scope.symbols.declare name .label t.span with
    | ok symbols =>
        rw [hsymbols] at h
        cases h
        rfl
    | error e =>
        rw [hsymbols] at h
        cases e <;> cases h <;> rfl

/-- Lines with labels that are alike are read alike if what they ask for is, with the aliases
declared above them. -/
theorem like_parseLine_of_agree (hscope : scope.Like L scope') {l l' : Line}
    (hlabel : Option.Rel (Token.Like L) (splitLabel l.tokens).1 (splitLabel l'.tokens).1)
    (hknown : ∀ t ∈ (splitLabel l.tokens).1, L.Knows t.chars)
    (hbody : ∀ s s' : Scope, s.Like L s' → s.aliases = scope.aliases →
      L.Agree (Pairs (Scope.Like L) (L.Behind (Option.Rel (Body.Like L))))
        (readBody s l.stop (splitLabel l.tokens).2)
        (readBody s' l'.stop (splitLabel l'.tokens).2)) :
    LineResult.Like L l l' (parseLine scope l) (parseLine scope' l') := by
  unfold parseLine
  generalize splitLabel l.tokens = x at hlabel hknown hbody
  generalize splitLabel l'.tokens = x' at hlabel hbody
  obtain ⟨t?, ts⟩ := x
  obtain ⟨t?', ts'⟩ := x'
  dsimp only at hlabel hknown hbody
  cases hlabel with
  | none => exact like_parseRest hscope .none .nil (hbody _ _ hscope rfl)
  | @some t t' ht =>
      dsimp only
      rcases (agree_declareLabel hscope ht (hknown t rfl)).results with
        ⟨⟨s, ds, a⟩, ⟨s', ds', a'⟩, hs, hs', h⟩ | ⟨d, d', hd, hd', h⟩
      · rw [hs, hs']
        exact like_parseRest h.fst h.snd.snd h.snd.fst
          (hbody _ _ h.fst (aliases_declareLabel hs))
      · rw [hd, hd']
        exact ⟨hscope, .cons h .nil, Or.inl ⟨rfl, rfl⟩⟩

/-- **Alike lines are read alike**, where the names in them are known. -/
theorem like_parseLine (hscope : scope.Like L scope') {l l' : Line} (hl : l.Like L l')
    (hknown : ∀ t ∈ l.names, L.Knows t.chars) :
    LineResult.Like L l l' (parseLine scope l) (parseLine scope' l') := by
  have hsplit := like_splitLabel hl.tokens
  refine like_parseLine_of_agree hscope hsplit.fst
    (fun t ht => hknown t (List.mem_append_left _ (Option.mem_toList.mpr ht)))
    fun s s' hs _ => agree_readBody hs hl.stop hsplit.snd fun t ht => ?_
  exact hknown t (List.mem_append_right _ ht)

end Chip8.Asm
