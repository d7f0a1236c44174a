import Chip8.Proofs.Asm.NameSpaces
import Chip8.Proofs.Asm.Precedence

/-! # Parentheses around a name

A name that is an operand of an instruction may as well stand in parentheses.

* `OperandContext` is an instruction around one of its operands, `OperandContext.Holds` says that a
  line is this instruction with that operand.
* `pieces_around`: the operands in front of it and those behind it are cut off by the commas.
* `like_parseLine_enclosed`: a name that is neither a reserved word nor an alias declared above is
  read alike with parentheses and without. An alias in parentheses is refused
  (`readOperand_enclosed_alias`).
* `Encloses` carries this over to source texts, for a name and the same name in parentheses. -/

namespace Chip8.Asm

/-! ### Contexts -/

/-- An instruction around one of its operands: commas stand between it and the others. -/
structure OperandContext where
  label : Option Face
  mnemonic : List Char
  front : List Face
  back : List Face
  front_ends : ∀ f ∈ front.getLast?, f.1 = .comma
  back_starts : ∀ f ∈ back.head?, f.1 = .comma

/-- The line is the instruction with the operand in its place. -/
structure OperandContext.Holds (c : OperandContext) (operand : List Face) (l : Line) : Prop where
  label : (splitLabel l.tokens).1.map Token.face = c.label
  code : (splitLabel l.tokens).2.map Token.face =
    (.name, c.mnemonic) :: (c.front ++ (operand ++ c.back))

/-- The tokens of a name in parentheses. -/
def Identifier.enclosed (i : Identifier) : List Face :=
  [(.parenOpen, ['(']), (.name, i.chars), (.parenClose, [')'])]

/-! ### Cutting at commas -/

theorem exists_pieces (stop : Token) (ts : List Token) : ∃ p ps, pieces stop ts = p :: ps := by
  induction ts with
  | nil => exact ⟨_, _, rfl⟩
  | cons t ts ih =>
      obtain ⟨p, ps, hps⟩ := ih
      rw [pieces, hps]
      split
      · exact ⟨_, _, rfl⟩
      · exact ⟨_, _, rfl⟩

theorem pieces_append_comma (stop : Token) {comma : Token} (hcomma : comma.kind = .comma)
    (ts us : List Token) : pieces stop (ts ++ comma :: us) = pieces comma ts ++ pieces stop us := by
  induction ts with
  | nil => exact if_pos hcomma
  | cons t ts ih =>
      obtain ⟨p, ps, hps⟩ := exists_pieces comma ts
      rw [List.cons_append, pieces, pieces, ih, hps]
      split <;> rfl

/-- The operands in front of another one, which the last comma cuts off. -/
def piecesBefore (ts : List Token) : List Piece :=
  match ts.getLast? with
  | none => []
  | some comma => pieces comma ts.dropLast

/-- The operands behind another one, which the first comma cuts off. -/
def piecesAfter (stop : Token) : List Token → List Piece
  | [] => []
  | _ :: ts => pieces stop ts

theorem pieces_around (stop : Token) {fs us bs : List Token}
    (hfs : ∀ t ∈ fs.getLast?, t.kind = .comma) (hus : ∀ t ∈ us, t.kind ≠ .comma)
    (hbs : ∀ t ∈ bs.head?, t.kind = .comma) :
    pieces stop (fs ++ (us ++ bs)) =
      piecesBefore fs ++ ⟨us, bs.head?.getD stop⟩ :: piecesAfter stop bs := by
  have hbehind : pieces stop (us ++ bs) = ⟨us, bs.head?.getD stop⟩ :: piecesAfter stop bs := by
    cases bs with
    | nil => rw [List.append_nil, pieces_of_no_comma hus]; rfl
    | cons comma bs => exact pieces_comma hus (hbs comma rfl)
  rcases fs.eq_nil_or_concat' with rfl | ⟨fs, comma, rfl⟩
  · exact hbehind
  · have hcomma : comma.kind = .comma := hfs comma (by rw [List.getLast?_concat]; rfl)
    rw [piecesBefore, List.getLast?_concat, List.dropLast_concat, List.append_assoc,
      List.singleton_append, pieces_append_comma stop hcomma, hbehind]

variable {L : Likeness}

theorem like_piecesBefore {ts ts' : List Token} (h : List.Forall₂ (Token.Like L) ts ts') :
    List.Forall₂ (Piece.Like L) (piecesBefore ts) (piecesBefore ts') := by
  have hlast := rel_getLast? h
  have hinit : List.Forall₂ (Token.Like L) ts.dropLast ts'.dropLast := by
    rw [List.dropLast_eq_take, List.dropLast_eq_take, ← h.length_eq]
    exact List.forall₂_take _ h
  unfold piecesBefore
  generalize ts.getLast? = x at hlast
  generalize ts'.getLast? = x' at hlast
  cases hlast with
  | none => exact .nil
  | some hcomma => exact like_pieces hcomma.stopsLike hinit

theorem like_piecesAfter {stop stop' : Token} (hstop : stop.StopsLike L stop')
    {ts ts' : List Token} (h : List.Forall₂ (Token.Like L) ts ts') :
    List.Forall₂ (Piece.Like L) (piecesAfter stop ts) (piecesAfter stop' ts') := by
  cases h with
  | nil => exact .nil
  | cons _ h => exact like_pieces hstop h

/-- The tokens of an operand, and those around it. -/
theorem OperandContext.exists_pieces (c : OperandContext) {operand : List Face}
    (hsome : operand ≠ []) (hoperand : ∀ f ∈ operand, f.1 ≠ .comma) {ts : List Token}
    (hts : ts.map Token.face = c.front ++ (operand ++ c.back)) :
    ∃ fs us bs, fs.map Token.face = c.front ∧ us.map Token.face = operand ∧
      bs.map Token.face = c.back ∧ ∀ stop, operandPieces stop ts =
        piecesBefore fs ++ ⟨us, bs.head?.getD stop⟩ :: piecesAfter stop bs := by
  obtain ⟨fs, vs, rfl, hfs, hvs⟩ := List.map_eq_append_iff.mp hts
  obtain ⟨us, bs, rfl, hus, hbs⟩ := List.map_eq_append_iff.mp hvs
  refine ⟨fs, us, bs, hfs, hus, hbs, fun stop => ?_⟩
  have hnonempty : (fs ++ (us ++ bs)).isEmpty = false := by
    cases us with
    | nil => exact absurd hus.symm hsome
    | cons u us => simp
  rw [operandPieces, hnonempty, if_neg Bool.false_ne_true]
  refine pieces_around stop (fun t ht => ?_) (fun t ht => ?_) fun t ht => ?_
  · refine c.front_ends t.face ?_
    rw [← hfs, List.getLast?_map, ht]
    rfl
  · exact hoperand t.face (hus ▸ List.mem_map_of_mem ht)
  · refine c.back_starts t.face ?_
    rw [← hbs, List.head?_map, ht]
    rfl

/-! ### Reading the operand -/

variable {aliases : Aliases} {i : Identifier}

/-- In parentheses the operand is an expression. -/
theorem readOperand_enclosed {ts : List Token} (hts : ts.map Token.face = i.enclosed)
    (aliases : Aliases) (stop : Token) :
    ∃ opening t closing, ts = opening :: ([t] ++ [closing]) ∧ opening.kind = .parenOpen ∧
      t.face = (.name, i.chars) ∧ closing.kind = .parenClose ∧
      readOperand aliases ⟨ts, stop⟩ = readFrom aliases stop [] none ts := by
  obtain ⟨opening, us, rfl, hopening, hus⟩ := List.map_eq_cons_iff.mp hts
  obtain ⟨t, vs, rfl, ht, hvs⟩ := List.map_eq_cons_iff.mp hus
  obtain ⟨closing, rfl, hclosing⟩ := List.map_eq_singleton_iff.mp hvs
  have hkind : opening.kind = .parenOpen := (Prod.mk.inj hopening).1
  refine ⟨opening, t, closing, rfl, hkind, ht, (Prod.mk.inj hclosing).1, ?_⟩
  unfold readOperand
  simp only [hkind]
  rfl

theorem readOperand_enclosed_name (hi : aliases.get? i = none) {ts : List Token}
    (hts : ts.map Token.face = i.enclosed) (stop : Token) :
    ∃ s, readOperand aliases ⟨ts, stop⟩ = .ok (.name i s, []) := by
  obtain ⟨opening, t, closing, rfl, hopening, ht, hclosing, hread⟩ :=
    readOperand_enclosed hts aliases stop
  have hinside : ChainRead aliases [t] (.name i t.span) := by
    intro stop frames us hframes _
    rw [operandRead_name hi ht, Frame.settle_of_closed hframes]
  refine ⟨opening.span.join closing.span, ?_⟩
  rw [hread, ← List.append_nil (opening :: ([t] ++ [closing])),
    operandRead_paren hopening hclosing hinside]
  rfl

/-- **An alias in parentheses is refused.** -/
theorem readOperand_enclosed_alias {r : UInt8} (hi : aliases.get? i = some r) {ts : List Token}
    (hts : ts.map Token.face = i.enclosed) (stop : Token) :
    ∃ s, readOperand aliases ⟨ts, stop⟩ = .error ⟨.aliasInExpression i, s⟩ := by
  obtain ⟨opening, t, closing, rfl, hopening, ht, -, hread⟩ :=
    readOperand_enclosed hts aliases stop
  obtain ⟨hkind, hchars⟩ := Prod.mk.inj ht
  have hopens : operandStart aliases opening = .ok (.inl (.paren opening.span)) := by
    rw [operandStart, hopening]
  have hrefused : operandStart aliases t = .error ⟨.aliasInExpression i, t.span⟩ := by
    rw [operandStart, hkind]
    dsimp only
    rw [nameOf, identifierOf, hchars, Identifier.ofChars?_chars]
    dsimp only
    rw [hi]
    rfl
  exact ⟨t.span, by rw [hread, readFrom_opens hopens, List.singleton_append,
    readFrom_refused hrefused]⟩

/-! ### Reading the line -/

variable {aliases' : Aliases} {c : OperandContext}

theorem Identifier.bare_ne_comma (i : Identifier) : ∀ f ∈ i.bare, f.1 ≠ .comma := by
  simp [Identifier.bare]

theorem Identifier.enclosed_ne_comma (i : Identifier) : ∀ f ∈ i.enclosed, f.1 ≠ .comma := by
  simp [Identifier.enclosed]

/-- With the parentheses and without, the operands are read alike. -/
theorem agree_readOperands_enclosed (haliases : aliases.Like .layout aliases')
    (hword : Keyword.ofWord? i.chars = none) (hi : aliases.get? i = none) {stop stop' : Token}
    (hstop : stop.StopsLike .layout stop') {ts ts' : List Token}
    (hts : ts.map Token.face = c.front ++ (i.bare ++ c.back))
    (hts' : ts'.map Token.face = c.front ++ (i.enclosed ++ c.back)) :
    Likeness.layout.Agree (Likeness.layout.Behind (List.Forall₂ (Node.Like .layout)))
      (readOperands aliases stop ts) (readOperands aliases' stop' ts') := by
  obtain ⟨fs, us, bs, hfs, hus, hbs, hpieces⟩ :=
    c.exists_pieces (List.cons_ne_nil _ _) i.bare_ne_comma hts
  obtain ⟨fs', us', bs', hfs', hus', hbs', hpieces'⟩ :=
    c.exists_pieces (List.cons_ne_nil _ _) i.enclosed_ne_comma hts'
  have hfront := like_piecesBefore (like_of_map_face (hfs.trans hfs'.symm))
  have hback := like_piecesAfter hstop (like_of_map_face (hbs.trans hbs'.symm))
  have hsame : ∀ p p' : Piece, p.Like .layout p' →
      Likeness.layout.Agree (Likeness.layout.Before (Node.Like .layout)) (readOperand aliases p)
        (readOperand aliases' p') := fun p p' hp =>
    agree_readOperand haliases hp fun t _ => Likeness.layout_knows t.chars
  rw [readOperands_eq, readOperands_eq, hpieces, hpieces']
  refine agree_readPieces (List.rel_append (hfront.imp hsame) (.cons ?_ (hback.imp hsame)))
  obtain ⟨t, rfl, ht⟩ := List.map_eq_singleton_iff.mp hus
  have hi' : aliases'.get? i = none := by rw [← haliases.get? (rfl : Likeness.layout.name i i), hi]
  obtain ⟨s, hread⟩ := readOperand_enclosed_name hi' hus' (bs'.head?.getD stop')
  rw [readOperand_bare aliases hword ht, hread, Aliases.operand, hi]
  exact .ok ⟨.name rfl trivial, .nil⟩

variable {scope scope' : Scope} {l l' : Line}

/-- **A name that is no alias is read alike with parentheses and without.** -/
theorem like_parseLine_enclosed (hscope : scope.Like .layout scope')
    (hword : Keyword.ofWord? i.chars = none) (hi : scope.aliases.get? i = none)
    (hl : c.Holds i.bare l) (hl' : c.Holds i.enclosed l') :
    LineResult.Like .layout l l' (parseLine scope l) (parseLine scope' l') := by
  have hlabel : Option.Rel (Token.Like .layout) (splitLabel l.tokens).1
      (splitLabel l'.tokens).1 := by
    have hfaces := hl.label.trans hl'.label.symm
    generalize (splitLabel l.tokens).1 = x at hfaces
    generalize (splitLabel l'.tokens).1 = x' at hfaces
    match x, x', hfaces with
    | none, none, _ => exact .none
    | some t, some t', h => exact .some (like_of_face (Option.some.inj h))
  refine like_parseLine_of_agree hscope hlabel (fun t _ => Likeness.layout_knows t.chars) ?_
  intro s s' hs haliases
  obtain ⟨t, ts, hcode, ht, hts⟩ := List.map_eq_cons_iff.mp hl.code
  obtain ⟨t', ts', hcode', ht', hts'⟩ := List.map_eq_cons_iff.mp hl'.code
  have hmnemonic : t.Like .layout t' := like_of_face (ht.trans ht'.symm)
  have hread := agree_readOperands_enclosed hs.aliases hword (by rw [haliases, hi])
    (Or.inr ⟨⟨l.endsCode_stop, l'.endsCode_stop⟩, trivial⟩) hts hts'
  rw [hcode, hcode']
  unfold readBody
  simp only [(Prod.mk.inj ht).1, (Prod.mk.inj ht').1]
  exact (agree_readInstruction_of_agree hmnemonic hread).map fun x x' hx =>
    ⟨hs, .some hx.fst, hx.snd⟩

/-! ### Sources -/

/-- The tokens in front of the comment of a line. -/
def Line.faces (l : Line) : List Face := l.tokens.map Token.face

/-- The lines have the same tokens in front of their comments. -/
def SameTokens (ls ls' : List Line) : Prop := ls.map Line.faces = ls'.map Line.faces

/-- The second source text is the first one with parentheses around the name `i`, which is an operand
of an instruction there; `aliases` are declared above. Blanks and comments may differ. -/
inductive Encloses (i : Identifier) : Aliases → String → String → Prop
  | intro {source source' : String} {before after before' after' : List Line} {l l' : Line}
      (c : OperandContext) (split : lines source = before ++ l :: after)
      (split' : lines source' = before' ++ l' :: after') (above : SameTokens before before')
      (bare : c.Holds i.bare l) (enclosed : c.Holds i.enclosed l')
      (below : SameTokens after after') :
      Encloses i (Scope.empty.behind before).aliases source source'

theorem SameTokens.like {ls ls' : List Line} (h : SameTokens ls ls') :
    List.Forall₂ (Line.Like .layout) ls ls' := by
  unfold SameTokens at h
  rw [← List.forall₂_eq_eq_eq, List.forall₂_map_left_iff, List.forall₂_map_right_iff] at h
  exact h.imp fun _ _ => Line.like_of_map_face

theorem like_behind (hscope : scope.Like .layout scope') {ls ls' : List Line}
    (hls : List.Forall₂ (Line.Like .layout) ls ls') :
    (scope.behind ls).Like .layout (scope'.behind ls') := by
  induction hls generalizing scope scope' with
  | nil => exact hscope
  | cons hl _ ih =>
      exact ih (like_parseLine hscope hl fun t _ => Likeness.layout_knows t.chars).scope

theorem like_parseLines_layout (hscope : scope.Like .layout scope') {ls ls' : List Line}
    (hls : List.Forall₂ (Line.Like .layout) ls ls') :
    Parsed.Like .layout (parseLines scope ls) (parseLines scope' ls') :=
  like_parseLines hscope hls fun _ _ t _ => Likeness.layout_knows t.chars

variable {source source' : String}

/-- **Parentheses around a name that is no alias change nothing that is read.** -/
theorem Encloses.like_parse (h : Encloses i aliases source source')
    (hword : Keyword.ofWord? i.chars = none) (hi : aliases.get? i = none) :
    Parsed.Like .layout (parse source) (parse source') := by
  cases h with
  | intro c hsplit hsplit' habove hbare henclosed hbelow =>
      have hbefore := like_parseLines_layout Scope.like_empty habove.like
      have hline := like_parseLine_enclosed (like_behind Scope.like_empty habove.like) hword hi
        hbare henclosed
      have hafter := like_parseLines_layout hline.scope hbelow.like
      rw [parse_around hsplit, parse_around hsplit']
      exact ⟨rel_codeOf_append hbefore.statements
          (rel_codeOf_append hline.code hafter.statements), hafter.symbols,
        List.rel_append hbefore.diagnostics (List.rel_append hline.diagnostics hafter.diagnostics)⟩

/-- **Parentheses around an alias are an error.** -/
theorem Encloses.hasErrors (h : Encloses i aliases source source') {r : UInt8}
    (hi : aliases.get? i = some r) : hasErrors (parse source').diagnostics = true := by
  cases h with
  | @intro _ _ before _ before' _ _ l' c _ hsplit' habove _ henclosed _ =>
      have hscope := like_behind Scope.like_empty habove.like
      rw [hscope.aliases.get? (rfl : Likeness.layout.name i i)] at hi
      cases hok : Asm.hasErrors (parse source').diagnostics with
      | true => rfl
      | false =>
          obtain ⟨t, ts, hcode, ht, hts⟩ := List.map_eq_cons_iff.mp henclosed.code
          obtain ⟨-, -, ns, -, -, hread⟩ := operands_of_noErrors (line_of_source hsplit' hok).1
            hcode (Prod.mk.inj ht).1
          obtain ⟨fs, us, bs, -, hus, -, hpieces⟩ :=
            c.exists_pieces (List.cons_ne_nil _ _) i.enclosed_ne_comma hts
          have hall := ((List.forall₂_and_left _ _).mp (hread.imp fun p n hn =>
            And.intro (Exists.intro n hn) hn)).1
          obtain ⟨n, hn⟩ := hall ⟨us, bs.head?.getD l'.stop⟩
            (hpieces l'.stop ▸ List.mem_append_right _ List.mem_cons_self)
          obtain ⟨s, herror⟩ := readOperand_enclosed_alias hi hus (bs.head?.getD l'.stop)
          rw [herror] at hn
          cases hn

/-! ### Texts -/

theorem faces_linesFrom (offset : Nat) (cs : List Char) :
    (linesFrom offset cs).map Line.faces = (linesFrom 0 cs).map Line.faces := by
  have hmoved : ∀ l : Line, (l.moved offset).faces = l.faces := by
    intro l
    rw [Line.faces, Line.tokens_moved, List.map_map]
    rfl
  rw [← Nat.zero_add offset, linesFrom_moved, List.map_map]
  exact List.map_congr_left fun l _ => hmoved l

/-- A line in front of an end of line stands on its own, whatever its text. -/
theorem linesFrom_around {bs : List Char} (hbs : bs = [] ∨ ∃ ds, bs = '\n' :: ds) :
    ∃ below, ∀ (offset : Nat) (m : List Char), (∀ c ∈ m, c ≠ '\n') →
      ∃ l after, linesFrom offset (m ++ bs) = l :: after ∧ l.chars = m ∧
        after.map Line.faces = below := by
  rcases hbs with rfl | ⟨ds, rfl⟩
  · refine ⟨[], fun offset m hm => ⟨⟨offset, m, false⟩, [], ?_, rfl, rfl⟩⟩
    rw [List.append_nil]
    exact linesFrom_last hm
  · exact ⟨_, fun offset m hm =>
      ⟨⟨offset, m, true⟩, _, linesFrom_newline hm ds, rfl, faces_linesFrom _ ds⟩⟩

/-- Between whole lines of two texts, a line stands on its own, whatever its text. -/
theorem lines_around {a b : String} (ha : a = "" ∨ ∃ c, a = c ++ "\n")
    (hb : b = "" ∨ ∃ d, b = "\n" ++ d) :
    ∃ before below, Scope.empty.behind before = Scope.empty.behind (lines a) ∧
      ∀ m : String, (∀ c ∈ m.toList, c ≠ '\n') →
        ∃ l after, lines (a ++ m ++ b) = before ++ l :: after ∧ l.chars = m.toList ∧
          after.map Line.faces = below := by
  have hbs : b.toList = [] ∨ ∃ ds, b.toList = '\n' :: ds := by
    rcases hb with rfl | ⟨d, rfl⟩
    · exact Or.inl rfl
    · exact Or.inr ⟨d.toList, String.toList_append⟩
  obtain ⟨below, hbelow⟩ := linesFrom_around hbs
  rcases ha with rfl | ⟨c, rfl⟩
  · refine ⟨[], below, rfl, fun m hm => ?_⟩
    rw [String.empty_append, lines, String.toList_append]
    exact hbelow 0 m.toList hm
  · obtain ⟨ls, -, hscope, hlines⟩ := lines_append c
    refine ⟨ls, below, hscope.symm, fun m hm => ?_⟩
    obtain ⟨l, after, hl, hchars, hafter⟩ :=
      hbelow (byteLength (c ++ "\n").toList) m.toList hm
    have htext : (m ++ b).toList = m.toList ++ b.toList := String.toList_append
    refine ⟨l, after, ?_, hchars, hafter⟩
    rw [String.append_assoc, hlines, lines, ← linesFrom_moved, Nat.zero_add, htext, hl]

/-- `ld v0` with another operand. -/
def loadContext : OperandContext where
  label := none
  mnemonic := "ld".toList
  front := [(.register 0, "v0".toList), (.comma, ",".toList)]
  back := []
  front_ends := by
    rintro f ⟨⟩
    rfl
  back_starts := by
    rintro f ⟨⟩

/-- The text `ld v0` with a name. -/
def bareLoad (i : Identifier) : String := "ld v0, " ++ i.text

/-- The text `ld v0` with a name in parentheses. -/
def enclosedLoad (i : Identifier) : String := "ld v0, (" ++ i.text ++ ")"

theorem Identifier.toList_text (i : Identifier) : i.text.toList = i.chars := String.toList_ofList

theorem toList_bareLoad (i : Identifier) : (bareLoad i).toList = "ld v0, ".toList ++ i.chars := by
  rw [bareLoad, String.toList_append, Identifier.toList_text]

theorem toList_enclosedLoad (i : Identifier) :
    (enclosedLoad i).toList = "ld v0, ".toList ++ '(' :: (i.chars ++ [')']) := by
  rw [enclosedLoad, String.toList_append, String.toList_append, Identifier.toList_text, List.append_assoc]
  rfl

theorem isPlain_load {operand : List Char} (h : operand.all isPlain = true) :
    ∀ c ∈ "ld v0, ".toList ++ operand, c ≠ '\n' ∧ c ≠ ';' := by
  have hall : ("ld v0, ".toList ++ operand).all isPlain = true := by
    rw [List.all_append, h]
    rfl
  intro c hc
  have hc' := List.all_eq_true.mp hall c hc
  rw [isPlain, Bool.and_eq_true, decide_eq_true_iff, decide_eq_true_iff] at hc'
  exact hc'

theorem loadContext_holds {operand : List Char} (hplain : operand.all isPlain = true) {l : Line}
    (hl : l.chars = "ld v0, ".toList ++ operand) : loadContext.Holds (faces operand) l := by
  have hcode : l.code = "ld v0, ".toList ++ operand := by
    rw [(code_of_plain fun c hc => (isPlain_load hplain c (hl ▸ hc)).2).1, hl]
  have hfaces : l.tokens.map Token.face = (.name, "ld".toList) ::
      ([(.register 0, "v0".toList), (.comma, ",".toList)] ++ (faces operand ++ [])) := by
    rw [Line.tokens, faces_tokensFrom, hcode, List.append_nil, ← faces_tokensFrom 7 operand]
    rfl
  obtain ⟨t, us, htokens, -, hus⟩ := List.map_eq_cons_iff.mp hfaces
  obtain ⟨u, vs, rfl, hu, -⟩ := List.map_eq_cons_iff.mp hus
  have hsplit : splitLabel l.tokens = (none, l.tokens) := by
    have hcolon : u.kind ≠ .colon := by
      rw [(Prod.mk.inj hu).1]
      exact fun h => by cases h
    rw [htokens]
    exact if_neg fun h => hcolon h.2
  exact ⟨by rw [hsplit]; rfl, by rw [hsplit]; exact hfaces⟩

/-- **`ld v0, NAME` and `ld v0, (NAME)`** on lines of their own, wherever they stand. -/
theorem encloses_load {a b : String} (ha : a = "" ∨ ∃ c, a = c ++ "\n")
    (hb : b = "" ∨ ∃ d, b = "\n" ++ d) (hi : isRegisterWord i.chars = false) :
    Encloses i (Scope.empty.behind (lines a)).aliases (a ++ bareLoad i ++ b)
      (a ++ enclosedLoad i ++ b) := by
  have hplain : i.chars.all isPlain = true :=
    isPlain_chars (.name hi : (Node.name i ⟨0, 0⟩).Printable)
  have hplain' : ('(' :: (i.chars ++ [')'])).all isPlain = true := by
    rw [List.all_cons, List.all_append, hplain]
    rfl
  have hbare : faces i.chars = i.bare := by
    have h := faces_identifier i hi delimited_nil
    rwa [List.append_nil] at h
  have henclosed : faces ('(' :: (i.chars ++ [')'])) = i.enclosed :=
    calc faces ('(' :: (i.chars ++ [')']))
        = (.parenOpen, ['(']) :: faces (i.chars ++ [')']) := faces_cons [] rfl rfl rfl
      _ = i.enclosed := by
          rw [faces_identifier i hi (delimited_cons rfl [])]
          rfl
  obtain ⟨before, below, hscope, hlines⟩ := lines_around ha hb
  obtain ⟨l, after, hl, hchars, hafter⟩ := hlines (bareLoad i) fun c hc =>
    (isPlain_load hplain c (toList_bareLoad i ▸ hc)).1
  obtain ⟨l', after', hl', hchars', hafter'⟩ := hlines (enclosedLoad i) fun c hc =>
    (isPlain_load hplain' c (toList_enclosedLoad i ▸ hc)).1
  rw [← hscope]
  refine .intro loadContext hl hl' rfl ?_ ?_ (hafter.trans hafter'.symm)
  · rw [← hbare]
    exact loadContext_holds hplain (hchars.trans (toList_bareLoad i))
  · rw [← henclosed]
    exact loadContext_holds hplain' (hchars'.trans (toList_enclosedLoad i))

/-! ### Names -/

/-- **Names are told apart.** No label and no alias is a reserved word. Aliases and symbols are
separate name spaces. A name on its own that is no reserved word is the register if it is an alias
declared above, and else the symbol; parentheses around it are refused in the first case and change
nothing in the second. `ld v0, NAME` and `ld v0, (NAME)` are such texts. -/
theorem names_told_apart :
    (∀ source,
      (∀ s ∈ (parse source).symbols.symbols, s.kind = .label →
        Keyword.ofWord? s.name.chars = none) ∧
      ∀ a ∈ (Scope.empty.behind (lines source)).aliases, Keyword.ofWord? a.1.chars = none) ∧
    (∀ source before l after t ts, Asm.hasErrors (parse source).diagnostics = false →
      lines source = before ++ l :: after → (splitLabel l.tokens).2 = t :: ts → t.kind = .name →
        ∃ s form ns, (parseLine (Scope.empty.behind before) l).statement = some s ∧
          s ∈ (parse source).statements ∧ s.body = some (.instruction form ns) ∧
          List.Forall₂ (Denotes (Scope.empty.behind before).aliases)
            (operandPieces l.stop ts) ns) ∧
    (∀ i aliases source source' origin, Encloses i aliases source source' →
      Keyword.ofWord? i.chars = none → aliases.get? i = none →
        (∃ ds ds', assemble source origin = .error ds ∧ assemble source' origin = .error ds') ∨
        ∃ P P', assemble source origin = .ok P ∧ assemble source' origin = .ok P' ∧
          P.bytes = P'.bytes ∧
          P.symbols.symbols.map Symbol.entry = P'.symbols.symbols.map Symbol.entry) ∧
    (∀ i aliases source source' r, Encloses i aliases source source' → aliases.get? i = some r →
      Asm.hasErrors (parse source').diagnostics = true) ∧
    ∀ a b i, (a = "" ∨ ∃ c, a = c ++ "\n") → (b = "" ∨ ∃ d, b = "\n" ++ d) →
      isRegisterWord i.chars = false →
        Encloses i (Scope.empty.behind (lines a)).aliases (a ++ bareLoad i ++ b)
          (a ++ enclosedLoad i ++ b) := by
  refine ⟨fun source => ?_, fun source before l after t ts hok hlines hcode hname => ?_,
    fun i aliases source source' origin h hword hi => ?_, fun i aliases source source' r h hi =>
    h.hasErrors hi, fun a b i ha hb hi => encloses_load ha hb hi⟩
  · have hscope := Scope.unreserved_empty.behind (lines source)
    rw [parse, symbols_parseLines]
    exact ⟨hscope.labels, hscope.aliases⟩
  · obtain ⟨hline, hmem⟩ := line_of_source hlines hok
    obtain ⟨s, form, ns, hs, hbody, hread⟩ := operands_of_noErrors hline hcode hname
    exact ⟨s, form, ns, hs, hmem s hs, hbody, hread.imp fun _ _ => denotes_of_readOperand⟩
  · rcases (like_assembleParsed (h.like_parse hword hi) origin).results with
      ⟨P, P', hP, hP', hlike⟩ | ⟨ds, ds', hds, hds', -⟩
    · exact Or.inr ⟨P, P', hP, hP', hlike.bytes, entries_of_like hlike.symbols⟩
    · exact Or.inl ⟨ds, ds', hds, hds'⟩

/-- A name. -/
def nameN : Identifier := ⟨['n'], Eq.refl true⟩

/-- The same text behind a declaration of `n` as a symbol, and behind one as an alias. -/
theorem names_told_apart_load :
    (∃ P P', assemble (".equ n, 5\n" ++ bareLoad nameN ++ "\n") 0x200 = .ok P ∧
      assemble (".equ n, 5\n" ++ enclosedLoad nameN ++ "\n") 0x200 = .ok P' ∧
      P.bytes = [0x60, 0x05] ∧ P.bytes = P'.bytes ∧
      P.symbols.symbols.map Symbol.entry = P'.symbols.symbols.map Symbol.entry) ∧
    Asm.hasErrors (parse (".alias n, v1\n" ++ enclosedLoad nameN ++ "")).diagnostics = true ∧
    ∃ s form ns,
      (parseLine (Scope.empty.behind [⟨0, ".alias n, v1".toList, true⟩])
        ⟨13, "ld v0, n".toList, false⟩).statement = some s ∧
      s ∈ (parse ".alias n, v1\nld v0, n").statements ∧ s.body = some (.instruction form ns) ∧
      List.Forall₂ (Denotes [(nameN, 1)])
        (operandPieces ⟨.endOfFile, [], ⟨21, 0⟩⟩
          [⟨.register 0, "v0".toList, ⟨16, 2⟩⟩, ⟨.comma, [','], ⟨18, 1⟩⟩,
            ⟨.name, ['n'], ⟨20, 1⟩⟩]) ns := by
  obtain ⟨-, hoperands, hsame, hrefused, hload⟩ := names_told_apart
  have hsymbol : (Scope.empty.behind (lines ".equ n, 5\n")).aliases.get? nameN = none := rfl
  have halias : (Scope.empty.behind (lines ".alias n, v1\n")).aliases.get? nameN = some 1 := by
    decide +kernel
  have hbytes : (assemble (".equ n, 5\n" ++ bareLoad nameN ++ "\n") 0x200).toOption.map
      Program.bytes = some [0x60, 0x05] := by
    decide +kernel
  refine ⟨?_, hrefused _ _ _ _ 1 (hload ".alias n, v1\n" "" nameN (Or.inr ⟨".alias n, v1", rfl⟩)
      (Or.inl rfl) rfl) halias, hoperands ".alias n, v1\nld v0, n"
    [⟨0, ".alias n, v1".toList, true⟩] ⟨13, "ld v0, n".toList, false⟩ []
    ⟨.name, "ld".toList, ⟨13, 2⟩⟩ _ (by decide +kernel) rfl rfl rfl⟩
  rcases hsame _ _ _ _ 0x200 (hload ".equ n, 5\n" "\n" nameN (Or.inr ⟨".equ n, 5", rfl⟩)
      (Or.inr ⟨"", rfl⟩) rfl) rfl hsymbol with ⟨ds, ds', hds, -⟩ | ⟨P, P', hP, hP', h⟩
  · rw [hds] at hbytes
    cases hbytes
  · rw [hP] at hbytes
    exact ⟨P, P', hP, hP', Option.some.inj hbytes, h⟩

/-- A name can be a symbol and an alias, and as an operand on its own it is the register then. -/
theorem names_told_apart_not_disjoint :
    (parse ".alias n, v1\n.equ n, 5\nld v0, n\n").diagnostics.isEmpty = true ∧
    nameN ∈ (parse ".alias n, v1\n.equ n, 5\nld v0, n\n").symbols.names ∧
    (Scope.empty.behind (lines ".alias n, v1\n.equ n, 5\nld v0, n\n")).aliases.get? nameN =
      some 1 ∧
    (assemble ".alias n, v1\n.equ n, 5\nld v0, n\n" 0x200).toOption.map Program.bytes =
      some [0x80, 0x10] ∧
    (assemble ".equ n, 5\nld v0, n\n" 0x200).toOption.map Program.bytes = some [0x60, 0x05] ∧
    (assemble ".alias n, v1\n.equ n, 5\nld v0, (n)\n" 0x200).toOption.map Program.bytes =
      none := by
  decide +kernel

/-- A constant may be declared under a reserved word, which is read in its place: nothing is said of
the names of constants above. -/
example :
    (parse ".equ DT, 5\nld v0, DT\n").diagnostics.isEmpty = true ∧
    (assemble ".equ DT, 5\nld v0, DT\n" 0x200).toOption.map Program.bytes = some [0xF0, 0x07] ∧
    (assemble ".equ DT, 5\nld v0, (DT)\n" 0x200).toOption.map Program.bytes =
      some [0x60, 0x05] := by
  decide +kernel

end Chip8.Asm
