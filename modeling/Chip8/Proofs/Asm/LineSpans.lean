import Chip8.Proofs.Asm.Nesting

/-! # Spans of a line

What a line says has its spans from the line.

* `Line.whole` goes from the first token of a line to its end. It is a place of the source, and the
  tokens of the line are in order within it (`Line.StandsIn.inOrder_whole`).
* `framed_parseLine`: the label of a line and the name of its constant are tokens of it, and its
  trees are read from pieces of its tokens, so all of them are within the line.
* `exists_comment`: the span of a comment is that of what remains between its mark and the end of
  the line without the blanks around it. -/

namespace Chip8.Asm

variable {source rest : List Char} {l : Line} {s : Statement} {P : Span → Prop}

/-! ### Lines -/

namespace Line

/-- The token that a line starts with. -/
def first (l : Line) : Token := l.tokens.head?.getD l.stop

/-- What a line says, from its first token to its end. -/
def whole (l : Line) : Span := ⟨l.first.span.start, l.endOffset - l.first.span.start⟩

theorem codeEnd_le (l : Line) : l.codeEnd ≤ l.endOffset := by
  have hlength := congrArg byteLength
    (List.takeWhile_append_dropWhile (p := (· ≠ ';')) (l := l.chars))
  rw [byteLength_append] at hlength
  unfold codeEnd endOffset code
  omega

theorem start_stop (l : Line) : l.stop.span.start = l.codeEnd := by
  unfold stop
  cases hcomment : l.comment? with
  | some text => rfl
  | none =>
      unfold terminator codeEnd
      rw [code_of_no_comment hcomment]
      dsimp only
      split <;> rfl

namespace StandsIn

/-- A line starts behind blanks. -/
theorem exists_blanks (h : l.StandsIn source rest) :
    ∃ gap code, l.code = gap ++ code ∧ l.first.span.start = l.offset + byteLength gap := by
  obtain ⟨front, -, hoffset⟩ := h.stands
  have halone : Stands (front ++ l.code) l.offset l.code := ⟨front, rfl, hoffset⟩
  obtain ⟨t, ⟨gap, more, hstands, -, -, hspan, -⟩, hfirst⟩ := tokensFrom_cases halone
  rcases hfirst with ⟨hnil, -⟩ | ⟨later, -, hcons⟩
  · refine ⟨l.code, [], (List.append_nil _).symm, ?_⟩
    rw [first, tokens, hnil]
    exact l.start_stop
  · have hcode := hstands.dropBytes
    rw [← hoffset, dropBytes_byteLength] at hcode
    refine ⟨gap, t.chars ++ more, hcode, ?_⟩
    rw [first, tokens, hcons]
    show t.span.start = _
    rw [hspan]

theorem start_first_le (h : l.StandsIn source rest) : l.first.span.start ≤ l.endOffset := by
  obtain ⟨gap, code, hcode, hstart⟩ := h.exists_blanks
  have hend := l.codeEnd_le
  rw [codeEnd, hcode, byteLength_append] at hend
  omega

theorem stop_whole (h : l.StandsIn source rest) : l.whole.stop = l.endOffset := by
  have hle := h.start_first_le
  show l.first.span.start + (l.endOffset - l.first.span.start) = l.endOffset
  omega

theorem isPlace_whole (h : l.StandsIn source rest) : IsPlace source l.whole := by
  rw [isPlace_iff, h.stop_whole]
  refine ⟨?_, h.boundary_endOffset⟩
  obtain ⟨gap, code, hcode, hstart⟩ := h.exists_blanks
  have hstands := h.stands
  rw [← List.takeWhile_append_dropWhile (p := (· ≠ ';')) (l := l.chars), ← Line.code, hcode,
    List.append_assoc, List.append_assoc] at hstands
  show Boundary source l.first.span.start
  rw [hstart]
  exact ⟨_, hstands.advance⟩

/-- The tokens of a line are in order within what it says. -/
theorem inOrder_whole (h : l.StandsIn source rest) :
    InOrder (fun s => IsPlace source s ∧ s.Within l.whole) l.whole.start l.tokens := by
  have htokens := h.inOrder_tokens
  have hstop := h.stop_whole
  have hend := l.codeEnd_le
  have hstart : l.whole.start = (l.tokens.head?.getD l.stop).span.start := rfl
  generalize l.whole = whole at *
  generalize l.tokens = ts at *
  cases ts with
  | nil => trivial
  | cons t ts =>
      have hfrom : InOrder (fun s => IsPlace source s ∧ s.stop ≤ l.codeEnd) whole.start (t :: ts) :=
        ⟨Nat.le_of_eq hstart, htokens.2⟩
      refine hfrom.imp ?_
      intro s hlo hs
      refine ⟨hs.1, hlo, ?_⟩
      omega

end StandsIn

end Line

/-! ### What a line says -/

/-- The names and trees of a statement are at places of a kind. -/
structure Statement.Framed (P : Span → Prop) (s : Statement) : Prop where
  label : ∀ label ∈ s.label, P label.span
  constant : ∀ name value, s.body = some (.constant name value) → P name.span
  nodes : ∀ n ∈ s.nodes, n.Framed P

section Reading

variable {scope above below : Scope} {aliases : Aliases} {stop : Token} {ts : List Token}
  {label : Option Label} {body : Option Body} {reports : List Diagnostic} {lo : Nat}

theorem piece_of_mem {p : Piece} (hp : p ∈ pieces stop ts) :
    p.tokens.Sublist ts ∧ (p.stop = stop ∨ p.stop.kind = .comma) := by
  induction ts generalizing p with
  | nil =>
      rw [pieces, List.mem_singleton] at hp
      subst hp
      exact ⟨.refl [], .inl rfl⟩
  | cons t ts ih =>
      obtain ⟨q, qs, hqs⟩ := exists_pieces stop ts
      rw [hqs] at ih
      rw [pieces, hqs] at hp
      split at hp
      · rename_i hcomma
        rcases List.mem_cons.mp hp with rfl | hp
        · exact ⟨List.nil_sublist _, .inr hcomma⟩
        · exact (ih hp).imp_left fun h => h.cons t
      · rcases List.mem_cons.mp hp with rfl | hp
        · exact (ih List.mem_cons_self).imp_left fun h => h.cons_cons t
        · exact (ih (List.mem_cons_of_mem q hp)).imp_left fun h => h.cons t

/-- An operand is read from a piece of the tokens. -/
theorem piece_of_mem_bodyOperands {o : List Token × Node} (ho : o ∈ bodyOperands aliases stop ts) :
    ∃ p : Piece, p.tokens.Sublist ts ∧ (p.stop = stop ∨ p.stop.kind = .comma) ∧
      (readOperand aliases p = .ok (o.2, []) ∨ readTree aliases p = .ok (o.2, [])) := by
  have hpiece : ∀ {read us}, o ∈ readings read (pieces stop us) → us.Sublist ts →
      ∃ p : Piece, p.tokens.Sublist ts ∧ (p.stop = stop ∨ p.stop.kind = .comma) ∧
        read p = .ok (o.2, []) := by
    intro read us ho hus
    obtain ⟨p, hp, -, hread⟩ := mem_readings ho
    exact ⟨p, (piece_of_mem hp).1.trans hus, (piece_of_mem hp).2, hread⟩
  unfold bodyOperands at ho
  split at ho
  · cases ho
  · rename_i t us
    have hus : us.Sublist (t :: us) := List.sublist_cons_self t us
    split at ho
    · obtain ⟨p, htokens, hstop, hread⟩ := hpiece ho hus
      exact ⟨p, htokens, hstop, .inl hread⟩
    · unfold directiveOperands at ho
      split at ho
      · obtain ⟨p, htokens, hstop, hread⟩ := hpiece ho ((List.drop_sublist 2 us).trans hus)
        exact ⟨p, htokens, hstop, .inr hread⟩
      · cases ho
      · cases ho
      all_goals
        obtain ⟨p, htokens, hstop, hread⟩ := hpiece ho hus
        exact ⟨p, htokens, hstop, .inr hread⟩
    · cases ho

theorem framed_readBody (hP : Joins P) (hstop : stop.kind.endsCode = true)
    (hts : InOrder P lo ts) (h : readBody above stop ts = .ok (below, body, none)) :
    ∀ n ∈ body.elim [] Body.nodes, n.Framed P := by
  rw [← nodes_of_readBody hstop h]
  intro n hn
  obtain ⟨o, ho, rfl⟩ := List.mem_map.mp hn
  obtain ⟨p, htokens, hend, hread⟩ := piece_of_mem_bodyOperands ho
  have hp := hts.sublist htokens
  have hclose : p.stop.kind ≠ .bracketClose := by
    intro hkind
    rcases hend with hend | hcomma
    · rw [← hend, hkind] at hstop
      cases hstop
    · rw [hkind] at hcomma
      cases hcomma
  rcases hread with hread | hread
  · exact framed_readOperand hP hclose hp hread
  · exact framed_readTree hP hp hread

/-- The name of a constant is a token of the line. -/
theorem name_of_readBody (hstop : stop.kind.endsCode = true) {name : Label} {value : Node}
    (h : readBody above stop ts = .ok (below, some (.constant name value), none)) :
    ∃ t ∈ ts, name.span = t.span := by
  rcases readBody_cases h with
    ⟨-, hnone, -⟩ | ⟨t, us, rfl, ⟨-, -, c, hc, hread⟩ | ⟨-, hread⟩⟩
  · cases hnone
  · obtain ⟨form, ns, rfl, -⟩ := readInstruction_eq_ok.mp hread
    cases hc
  · generalize hbody : some (Body.constant name value) = body at hread
    cases readDirective_eq_ok.mp hread with
    | constant _ hconstant =>
        obtain ⟨u, us₁, i, comma, us₂, n, rfl, hu, -⟩ := readConstant_eq_ok.mp hconstant
        obtain ⟨rfl, -⟩ := expect_inv (ne_of_endsCode hstop rfl) hu
        cases hbody
        exact ⟨u, List.mem_cons_of_mem t List.mem_cons_self, rfl⟩
    | registerAlias => cases hbody
    | only hname _ => rcases hname with ⟨-, rfl⟩ | ⟨-, rfl⟩ <;> cases hbody
    | all hname _ => rcases hname with ⟨-, rfl⟩ | ⟨-, rfl⟩ <;> cases hbody

theorem span_of_declareLabel {t : Token}
    (h : declareLabel above t = .ok (below, reports, label)) :
    ∀ a ∈ label, a.span = t.span := by
  unfold declareLabel at h
  split at h
  · cases h
  · obtain ⟨name, -, h⟩ := bind_eq_ok h
    split at h
    · cases h
      intro a ha
      cases ha
      rfl
    · cases h
      intro a ha
      cases ha

theorem body_of_statement (h : (parseRest scope l label reports ts).statement = some s) :
    ∃ below body, readBody scope l.stop ts = .ok (below, body, none) ∧
      statementOf? l label body = some s := by
  unfold parseRest at h
  split at h
  · cases h
  · cases h
  · rename_i below body hread
    exact ⟨below, body, hread, h⟩

/-- A statement is what its line is read as, behind a label that is a token of it. -/
theorem line_of_statement (h : (parseLine scope l).statement = some s) :
    ∃ above below label body, (∀ a ∈ label, ∃ t ∈ l.tokens, a.span = t.span) ∧
      readBody above l.stop (splitLabel l.tokens).2 = .ok (below, body, none) ∧
      statementOf? l label body = some s := by
  unfold parseLine at h
  split at h
  · rename_i ts hsplit
    obtain ⟨below, body, hread, hs⟩ := body_of_statement h
    rw [hsplit]
    exact ⟨scope, below, none, body, nofun, hread, hs⟩
  · rename_i t ts hsplit
    obtain ⟨colon, htokens, -⟩ := splitLabel_eq_some hsplit
    split at h
    · cases h
    · rename_i above reports label hlabel
      obtain ⟨below, body, hread, hs⟩ := body_of_statement h
      rw [hsplit]
      refine ⟨above, below, label, body, ?_, hread, hs⟩
      intro a ha
      exact ⟨t, htokens ▸ List.mem_cons_self, span_of_declareLabel hlabel a ha⟩

theorem eq_of_statementOf? (h : statementOf? l label body = some s) :
    s = ⟨label, body, l.commentSpan?, l.whole⟩ := by
  unfold statementOf? at h
  dsimp only at h
  split at h
  · cases h
  · cases h
    rfl

/-- **What a line says** has the span of the line, and its spans from the tokens of it. -/
theorem framed_parseLine (hP : Joins P) (htokens : InOrder P lo l.tokens)
    (h : (parseLine scope l).statement = some s) :
    s.span = l.whole ∧ s.comment = l.commentSpan? ∧ s.Framed P := by
  obtain ⟨above, below, label, body, hlabel, hread, hs⟩ := line_of_statement h
  obtain rfl := eq_of_statementOf? hs
  have hrest := htokens.sublist (sublist_splitLabel l.tokens)
  refine ⟨rfl, rfl, ?_, ?_, ?_⟩
  · intro a ha
    obtain ⟨t, ht, hspan⟩ := hlabel a ha
    rw [hspan]
    exact htokens.place t ht
  · intro name value hbody
    obtain rfl : body = some (.constant name value) := hbody
    obtain ⟨t, ht, hspan⟩ := name_of_readBody l.endsCode_stop hread
    rw [hspan]
    exact hrest.place t ht
  · have hnodes := framed_readBody hP l.endsCode_stop hrest hread
    cases body with
    | none => exact hnodes
    | some b => exact hnodes

end Reading

/-! ### Comments -/

/-- The comment of a statement, with all that stands in its line around its text. -/
structure CommentAt (source : List Char) (whole comment : Span)
    (before code left text right rest : List Char) : Prop where
  source_eq : source = before ++ (code ++ ';' :: (left ++ text ++ right)) ++ rest
  whole_eq : whole = ⟨byteLength before, byteLength (code ++ ';' :: (left ++ text ++ right))⟩
  /-- The mark is the first one in the line. -/
  mark : ∀ c ∈ code, c ≠ ';'
  line : ∀ c ∈ code ++ (left ++ text ++ right), c ≠ '\n'
  ends : rest.head?.all (· = '\n') = true
  blanks : ∀ c ∈ left ++ right, isBlank c = true
  stripped : (∀ c ∈ text.head?, isBlank c = false) ∧ ∀ c ∈ text.getLast?, isBlank c = false
  /-- If nothing remains the text is that directly behind the mark. -/
  empty : text = [] → left = []
  comment_eq : comment = ⟨byteLength before + byteLength code + 1 + byteLength left,
    byteLength text⟩

/-- A text and the blanks around it. If it has blanks only, they are behind it. -/
theorem exists_trimmed (cs : List Char) :
    ∃ left right, cs = left ++ trimmed cs ++ right ∧ (∀ c ∈ left ++ right, isBlank c = true) ∧
      (∀ c ∈ (trimmed cs).head?, isBlank c = false) ∧
      (∀ c ∈ (trimmed cs).getLast?, isBlank c = false) ∧
      left = if (trimmed cs).isEmpty then [] else cs.takeWhile isBlank := by
  by_cases hempty : (trimmed cs).isEmpty = true
  · have hblank := hempty
    rw [isEmpty_trimmed, List.isEmpty_iff, List.rdropWhile_eq_nil_iff] at hblank
    rw [if_pos hempty, List.isEmpty_iff.mp hempty]
    exact ⟨[], cs, rfl, hblank, nofun, nofun, rfl⟩
  · have hsplit : cs = cs.takeWhile isBlank ++ trimmed cs ++
        (cs.dropWhile isBlank).rtakeWhile isBlank := by
      rw [List.append_assoc, trimmed, List.rdropWhile_append_rtakeWhile,
        List.takeWhile_append_dropWhile]
    refine ⟨_, _, hsplit, ?_, ?_, ?_, (if_neg hempty).symm⟩
    · intro c hc
      rcases List.mem_append.mp hc with hc | hc
      · exact List.mem_takeWhile_imp hc
      · exact List.mem_rtakeWhile_imp hc
    · obtain ⟨behind, hprefix⟩ := List.rdropWhile_prefix isBlank (l := cs.dropWhile isBlank)
      have hbehind : trimmed cs ++ behind = cs.dropWhile isBlank := hprefix
      have hhead := List.head?_dropWhile_not isBlank cs
      rw [← hbehind] at hhead
      intro c hc
      rw [List.head?_append, Option.mem_def.mp hc] at hhead
      simpa using hhead
    · intro c hc
      obtain ⟨hne, rfl⟩ := List.mem_getLast?_eq_getLast hc
      have hlast := List.rdropWhile_last_not isBlank (cs.dropWhile isBlank) hne
      exact Bool.eq_false_iff.mpr hlast

/-- **The comment of a line** is what remains of its text without the blanks around it. -/
theorem exists_comment (h : l.StandsIn source rest) {place : Span}
    (hplace : l.commentSpan? = some place) :
    ∃ before code left text right,
      CommentAt source l.whole place before code left text right rest := by
  cases hcomment : l.comment? with
  | none =>
      rw [Line.commentSpan?, hcomment] at hplace
      cases hplace
  | some cs =>
      obtain ⟨gap, code, hcode, hstart⟩ := h.exists_blanks
      obtain ⟨left, right, hcs, hblanks, hhead, hlast, hleft⟩ := exists_trimmed cs
      obtain ⟨front, hsource, hoffset⟩ := h.stands
      have hchars : l.chars = gap ++ (code ++ ';' :: cs) := by
        rw [Line.chars_of_comment hcomment, hcode, List.append_assoc]
      have hunbroken := h.unbroken
      have hmark : ∀ c ∈ l.code, c ≠ ';' := fun c hc => by
        simpa using List.mem_takeWhile_imp hc
      refine ⟨front ++ gap, code, left, trimmed cs, right, ?_, ?_, ?_, ?_, h.ends.newline, hblanks,
        ⟨hhead, hlast⟩, ?_, ?_⟩
      · rw [← hcs, hsource, hchars]
        simp only [List.append_assoc]
      · rw [← hcs, Line.whole, hstart, byteLength_append, hoffset]
        congr 1
        rw [Line.endOffset, hchars, byteLength_append]
        omega
      · intro c hc
        exact hmark c (hcode ▸ List.mem_append_right gap hc)
      · rw [← hcs]
        intro c hc
        apply hunbroken
        rw [hchars]
        rcases List.mem_append.mp hc with hc | hc
        · exact List.mem_append_right gap (List.mem_append_left _ hc)
        · exact List.mem_append_right gap (List.mem_append_right code (List.mem_cons_of_mem _ hc))
      · intro hempty
        rw [hleft, hempty]
        rfl
      · have hend : l.codeEnd = byteLength (front ++ gap) + byteLength code := by
          rw [Line.codeEnd, hcode, byteLength_append, byteLength_append, hoffset, Nat.add_assoc]
        rw [Reader.commentSpan?_eq hcomment, Reader.extended_none] at hplace
        rw [hleft, ← hend, ← Option.some.inj hplace]
        by_cases hempty : (trimmed cs).isEmpty = true
        · rw [if_pos hempty, if_pos hempty, List.isEmpty_iff.mp hempty]
          rfl
        · rw [if_neg hempty, if_neg hempty]
          rfl

theorem CommentAt.isPlace {whole comment : Span} {before code left text right : List Char}
    (h : CommentAt source whole comment before code left text right rest) :
    IsPlace source comment ∧ comment.Within whole := by
  have hmark : (';' : Char).utf8Size = 1 := rfl
  constructor
  · refine ⟨before ++ (code ++ ';' :: left), text, right ++ rest, ?_, ?_⟩
    · rw [h.source_eq]
      simp
    · rw [h.comment_eq]
      simp only [byteLength_append, byteLength_cons, hmark]
      congr 1
      omega
  · rw [h.comment_eq, h.whole_eq]
    constructor
    · dsimp only
      omega
    · simp only [Span.stop, byteLength_append, byteLength_cons, hmark]
      omega

end Chip8.Asm
