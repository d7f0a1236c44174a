import Chip8.Proofs.Asm.Descent
import Chip8.Proofs.Asm.Standing

/-! # One turn, one line

From the start of a line one turn of the main loop reads this line and no more.

* `follows_body`, `outcome_label`, `outcome_statementBehind`: what a statement is read from, in the
  order in which it is read. Each leaves the lexer in the line, or at the end of it.
* `lineRead_statement` is a whole line: it ends behind the terminator of the line, or in a place
  from which the rest of the line can be skipped.
* `step_line` adds the recovery: a turn ends at the start of the next line and does what `parseLine`
  does. -/

namespace Chip8.Asm

open Reading (Follows)

namespace Reader

/-! ### Tokens of a line -/

section Tokens

variable {α β : Type} {r : Reader} {m : TokenReading α}

theorem outcome_tokens {x : Except Diagnostic α} {l : Lexer}
    (h : m.outcome r.lexer = some (x, l)) :
    (tokens m).outcome r = some (x, { r with lexer := l }) := by
  show (m.outcome r.lexer).map (fun y => (y.1, ({ r with lexer := y.2 } : Reader))) = _
  rw [h]
  rfl

/-- Reading tokens changes nothing but the place of the reader. -/
theorem follows_tokens {E : Lexer → Prop} {R : β → α → Lexer → Prop} {x : Except Diagnostic β}
    (h : Follows E R x (m.outcome r.lexer)) :
    Follows (fun s => ∃ l, s = { r with lexer := l } ∧ E l)
      (fun b a s => ∃ l, s = { r with lexer := l } ∧ R b a l) x ((tokens m).outcome r) := by
  rcases h.results with ⟨b, a, l, hx, hm, hr⟩ | ⟨d, l, hx, hm, he⟩
  · rw [outcome_tokens hm, hx]
    exact .ok ⟨l, rfl, hr⟩
  · rw [outcome_tokens hm, hx]
    exact .error ⟨l, rfl, he⟩

end Tokens

variable {stop t first : Token} {a e m : Lexer} {ts : List Token} {r : Reader}

/-- The reader is where it was but for its place, from which the rest of the line can be skipped. -/
def Strays (e : Lexer) (r s : Reader) : Prop := ∃ l, s = { r with lexer := l } ∧ Recovers e l

/-! ### Bodies -/

/-- What a body leaves behind: the names declared so far, and a lexer in front of the token behind
it. -/
def BodyRead (e : Lexer) (stop : Token) (a : Lexer) (r : Reader)
    (x : Scope × Option Body × Option Token) (b : Option Body) (s : Reader) : Prop :=
  x.2.1 = b ∧ ∃ l, s = { r with lexer := l, scope := x.1 } ∧ Behind e stop a x.2.2 l

/-- A token that starts no body is given back. -/
theorem follows_no_body (hedge : Edge e stop a) (htaken : Taken stop a ts t r.lexer)
    (hpushed : r.lexer.pushed = none) :
    Follows (Strays e r) (BodyRead e stop a r) (.ok (r.scope, none, ts.head?))
      ((do
        tokens (putBack t)
        return none : LineReading (Option Body)).outcome r) := by
  have hput : (tokens (putBack t)).outcome r =
      some (.ok (), { r with lexer := r.lexer.unread t }) := outcome_tokens rfl
  rw [Reading.outcome_bind_ok hput]
  exact .ok ⟨rfl, _, rfl, (htaken.putBack hpushed).behind hedge⟩

theorem follows_body (hedge : Edge e stop a) (hstop : stop.kind.endsCode = true)
    (htaken : Taken stop a ts t r.lexer) (hpushed : t.kind = .name ∨ r.lexer.pushed = none) :
    Follows (Strays e r) (BodyRead e stop a r) (readBody r.scope stop ts)
      ((body t).outcome r) := by
  have hget : (get : LineReading Reader).outcome r = some (.ok r, r) := rfl
  rw [body, Reading.outcome_bind_ok hget]
  cases htaken with
  | done =>
      have hnone := follows_no_body (r := r) hedge Taken.done hedge.unpushed
      cases hkind : stop.kind <;> first | exact hnone | (rw [hkind] at hstop; cases hstop)
  | @token _ ts _ hcode hrest =>
      rw [readBody]
      cases hkind : t.kind with
      | name =>
          rcases (follows_tokens (follows_instruction hedge hstop hrest t)).results with
            ⟨⟨b, rest⟩, _, s, hx, hm, l, rfl, rfl, hbehind⟩ | ⟨d, s, hx, hm, l, rfl, hrecovers⟩
          · dsimp only
            rw [hx, Reading.outcome_bind_ok hm]
            exact .ok ⟨rfl, l, rfl, hbehind⟩
          · dsimp only
            rw [hx, Reading.outcome_bind_error hm]
            exact .error ⟨l, rfl, hrecovers⟩
      | directive =>
          rcases (follows_tokens (follows_directive hedge hstop hrest r.scope t)).results with
            ⟨⟨scope, b, rest⟩, y, s, hx, hm, l, rfl, hscope, hb, hbehind⟩ |
              ⟨d, s, hx, hm, l, rfl, hrecovers⟩
          · obtain ⟨scope', b'⟩ := y
            dsimp only at hscope hb hbehind ⊢
            subst hscope hb
            rw [hx, Reading.outcome_bind_ok hm]
            exact .ok ⟨rfl, l, rfl, hbehind⟩
          · dsimp only
            rw [hx, Reading.outcome_bind_error hm]
            exact .error ⟨l, rfl, hrecovers⟩
      | _ =>
          have hname : t.kind ≠ .name := by
            rw [hkind]
            exact TokenKind.noConfusion
          exact follows_no_body hedge (.token hcode hrest) (hpushed.resolve_left hname)

/-! ### Labels -/

/-- A declaration follows `declareLabel`. The report of a label that is declared already is kept. -/
theorem outcome_declare (t : Token) (r : Reader) :
    (declare t).outcome r =
      match declareLabel r.scope t with
      | .error d => some (.error d, r)
      | .ok (scope, reports, label) =>
          some (.ok label, { r with scope := scope, reports := r.reports ++ reports }) := by
  have hget : (get : LineReading Reader).outcome r = some (.ok r, r) := rfl
  have hresult := Reading.outcome_ofExcept (declareLabel r.scope t) r
  rw [declare, Reading.outcome_bind_ok hget]
  cases hdeclare : declareLabel r.scope t with
  | error d =>
      rw [hdeclare] at hresult
      exact Reading.outcome_bind_error hresult _
  | ok x =>
      rw [hdeclare] at hresult
      exact Reading.outcome_bind_ok hresult _

theorem splitLabel_of_none (h : (splitLabel ts).1 = none) : (splitLabel ts).2 = ts := by
  unfold splitLabel at h ⊢
  split
  · rename_i t colon us
    dsimp only at h
    split
    · rename_i hkinds
      rw [if_pos hkinds] at h
      cases h
    · rfl
  · rfl

/-- A line without a label. Where the first token is a name, the one behind it is looked at and
given back. -/
theorem outcome_label_none (hedge : Edge e stop a)
    (htaken : Taken stop a ts first r.lexer) (hpushed : r.lexer.pushed = none)
    (hsplit : (splitLabel ts).1 = none) :
    ∃ l, (label first).outcome r = some (.ok (none, first), { r with lexer := l }) ∧
      Taken stop a ts first l ∧ (first.kind = .name ∨ l.pushed = none) := by
  by_cases hname : first.kind = .name
  · obtain ⟨us, rfl, hus⟩ := htaken.of_kind hedge hname (by decide) rfl
    obtain ⟨behind, k, hnext, hk, htaken'⟩ := hus.take
    have hlook : (tokens nextToken).outcome r = some (.ok behind, { r with lexer := k }) :=
      outcome_tokens (outcome_next hnext)
    have hput : (tokens (putBack behind)).outcome { r with lexer := k } =
        some (.ok (), { r with lexer := k.unread behind }) := outcome_tokens rfl
    have hcolon : behind.kind ≠ .colon := by
      intro hcolon
      obtain ⟨vs, rfl, -⟩ := htaken'.of_kind hedge hcolon (by decide) rfl
      rw [splitLabel, if_pos ⟨hname, hcolon⟩] at hsplit
      cases hsplit
    refine ⟨k.unread behind, ?_, .token (by rw [hname]; rfl) (htaken'.putBack hk), Or.inl hname⟩
    rw [label, if_pos hname, Reading.outcome_bind_ok hlook, if_neg hcolon,
      Reading.outcome_bind_ok hput]
    rfl
  · refine ⟨r.lexer, ?_, htaken, Or.inr hpushed⟩
    rw [label, if_neg hname]
    rfl

/-- A line with a label. -/
theorem outcome_label_some (hedge : Edge e stop a) (htaken : Taken stop a ts first r.lexer)
    {us : List Token} (hsplit : splitLabel ts = (some t, us)) :
    t = first ∧ match declareLabel r.scope t with
      | .error d => ∃ s, (label first).outcome r = some (.error d, s) ∧ Strays e r s
      | .ok (scope, reports, name) => ∃ u l, (label first).outcome r =
          some (.ok (name, u),
            { r with lexer := l, scope := scope, reports := r.reports ++ reports }) ∧
          Taken stop a us u l ∧ l.pushed = none := by
  obtain ⟨colon, rfl, hname, hcolon⟩ := splitLabel_eq_some hsplit
  cases htaken with
  | token hcode hrest =>
      cases hrest with
      | @token _ _ _ k hnext _ hus =>
          refine ⟨rfl, ?_⟩
          have hlook : (tokens nextToken).outcome r = some (.ok colon, { r with lexer := k }) :=
            outcome_tokens (outcome_next hnext)
          have hdeclare := outcome_declare t { r with lexer := k }
          rw [label, if_pos hname, Reading.outcome_bind_ok hlook, if_pos hcolon]
          dsimp only at hdeclare
          cases hresult : declareLabel r.scope t with
          | error d =>
              rw [hresult] at hdeclare
              exact ⟨_, Reading.outcome_bind_error hdeclare _, k, rfl, hus.recovers hedge⟩
          | ok x =>
              obtain ⟨scope, reports, name⟩ := x
              rw [hresult] at hdeclare
              obtain ⟨u, l, hnext', hl, htaken'⟩ := hus.take
              have hlook' : (tokens nextToken).outcome
                  { r with lexer := k, scope := scope, reports := r.reports ++ reports } =
                  some (.ok u,
                    { r with lexer := l, scope := scope, reports := r.reports ++ reports }) :=
                outcome_tokens (outcome_next hnext')
              refine ⟨u, l, ?_, htaken', hl⟩
              rw [Reading.outcome_bind_ok hdeclare, Reading.outcome_bind_ok hlook']
              rfl

/-! ### Statements -/

/-- The terminator of a line is taken, and given back if it is the end of the file. -/
theorem outcome_endOfLine {l : Line} {m b : Lexer} (hnext : m.next = (l.terminator, b)) :
    endOfLine.outcome m =
      some (.ok l.terminator.span, if l.terminated then b else b.unread l.terminator) := by
  rw [endOfLine, outcome_next_bind hnext]
  cases hl : l.terminated with
  | true =>
      have hkind : l.terminator.kind = .newline := by rw [Line.terminator, hl]; rfl
      rw [if_pos hkind]
      rfl
  | false =>
      have hkind : l.terminator.kind = .endOfFile := by rw [Line.terminator, hl]; rfl
      rw [hkind, if_neg TokenKind.noConfusion, if_pos rfl]
      rfl

theorem outcome_endOfLine_refused {m b : Lexer} (hnext : m.next = (t, b))
    (hcode : t.kind.endsCode = false) :
    endOfLine.outcome m = some (.error (.unexpected t "end of line"), b) := by
  have hnewline : .newline ≠ t.kind := ne_of_endsCode rfl hcode
  have hfile : .endOfFile ≠ t.kind := ne_of_endsCode rfl hcode
  rw [endOfLine, outcome_next_bind hnext, if_neg hnewline.symm, if_neg hfile.symm, outcome_refuse,
    refused, endsLine_of_endsCode hcode]
  rfl

/-- Where a line ends: behind its newline, or with the end of the file given back. -/
def ended (source : List Char) (l : Line) : Lexer :=
  if l.terminated then .placed source l.terminator.span.stop
  else (Lexer.placed source l.terminator.span.stop).unread l.terminator

variable {l : Line} {source rest : List Char} {offset : Nat}

theorem start_terminator (l : Line) : l.terminator.span.start = l.endOffset := by
  unfold Line.terminator
  split <;> rfl

/-- Behind the code of a line its comment and its terminator are read. -/
theorem outcome_ended (h : l.StandsIn source rest)
    (hahead : Ahead l.stop (.placed source l.stop.span.stop) [] r.lexer) :
    ∃ m, (tokens comment).outcome r = some (.ok l.commentSpan?, { r with lexer := m }) ∧
      (tokens endOfLine).outcome { r with lexer := m } =
        some (.ok l.terminator.span, { r with lexer := ended source l }) := by
  obtain ⟨m, hcomment, hnext⟩ := outcome_comment h hahead
  exact ⟨m, outcome_tokens hcomment, outcome_tokens (outcome_endOfLine hnext)⟩

/-- In front of a token of code there is no comment, and the line does not end. -/
theorem outcome_over (hnext : r.lexer.next = (t, m)) (hcode : t.kind.endsCode = false) :
    (tokens comment).outcome r = some (.ok none, { r with lexer := m.unread t }) ∧
      (tokens endOfLine).outcome { r with lexer := m.unread t } =
        some (.error (.unexpected t "end of line"), { r with lexer := m }) := by
  have hmark : .commentStart ≠ t.kind := ne_of_endsCode rfl hcode
  have hcomment : comment.outcome r.lexer = some (.ok none, m.unread t) := by
    rw [comment, outcome_next_bind hnext, if_neg hmark.symm]
    rfl
  have hback := Lexer.next_unread (Lexer.pushed_next hnext) t
  exact ⟨outcome_tokens hcomment, outcome_tokens (outcome_endOfLine_refused hback hcode)⟩

/-- The rest of a line behind its label. It is read to the end, or refused in front of a place from
which it can be skipped. -/
theorem outcome_statementBehind (h : l.StandsIn source rest) {ts : List Token}
    (htaken : Taken l.stop (.placed source l.stop.span.stop) ts t r.lexer)
    (hpushed : t.kind = .name ∨ r.lexer.pushed = none)
    (hfirst : l.tokens.head?.getD l.stop = first) (label : Option Label) :
    match readBody r.scope l.stop ts with
    | .error d => ∃ s, (statementBehind first label t).outcome r = some (.error d, s) ∧
        Strays (.placed source l.terminator.span.stop) r s
    | .ok (scope, _, some t') => ∃ s, (statementBehind first label t).outcome r =
        some (.error (.unexpected t' "end of line"), s) ∧
        Strays (.placed source l.terminator.span.stop) { r with scope := scope } s
    | .ok (scope, b, none) => (statementBehind first label t).outcome r =
        some (.ok (statementOf? l label b),
          { r with lexer := ended source l, scope := scope }) := by
  rw [statementBehind]
  rcases (follows_body h.edge l.endsCode_stop htaken hpushed).results with
    ⟨⟨scope, b, behind⟩, _, s, hx, hm, rfl, m, rfl, hbehind⟩ | ⟨d, s, hx, hm, hstrays⟩
  · rw [hx, Reading.outcome_bind_ok hm]
    dsimp only at hbehind ⊢
    cases hbehind with
    | stop hahead =>
        obtain ⟨m', hcomment, hend⟩ :=
          outcome_ended (r := { r with lexer := m, scope := scope }) h hahead
        rw [Reading.outcome_bind_ok hcomment, Reading.outcome_bind_ok hend]
        dsimp only
        rw [statementOf?, start_terminator, hfirst]
        dsimp only
        split <;> rfl
    | @token t' _ m' hnext hcode hrecovers =>
        obtain ⟨hcomment, hend⟩ :=
          outcome_over (r := { r with lexer := m, scope := scope }) hnext hcode
        refine ⟨_, ?_, m', rfl, hrecovers⟩
        rw [Reading.outcome_bind_ok hcomment, Reading.outcome_bind_error hend]
  · rw [hx]
    exact ⟨s, Reading.outcome_bind_error hm _, hstrays⟩

/-- The reader behind a line, with what the line says. -/
def after (r : Reader) (result : LineResult) (l : Lexer) : Reader :=
  ⟨l, result.scope, r.statements ++ result.statement.toList, r.reports ++ result.diagnostics⟩

/-- What a line leaves behind: a statement, or an error in front of a place from which the rest of
the line can be skipped. What was reported before counts in both cases. -/
inductive LineRead (e : Lexer) (r : Reader) (l : Lexer) (result : LineResult) :
    Option (Except Diagnostic (Option Statement) × Reader) → Prop
  | said {s : Option Statement} (statement : result.statement = s) :
      LineRead e r l result (some (.ok s, { r with
        lexer := l, scope := result.scope, reports := r.reports ++ result.diagnostics }))
  | refused {d : Diagnostic} {ds : List Diagnostic} {m : Lexer} (recovers : Recovers e m)
      (diagnostics : result.diagnostics = ds ++ [d]) (statement : result.statement = none) :
      LineRead e r l result (some (.error d, { r with
        lexer := m, scope := result.scope, reports := r.reports ++ ds }))

/-- The rest of a line gives what `parseRest` gives. -/
theorem lineRead_rest (h : l.StandsIn source rest) {ts : List Token} {r' : Reader}
    {reports : List Diagnostic} {scope : Scope} {m : Lexer}
    (hr' : r' = { r with lexer := m, scope := scope, reports := r.reports ++ reports })
    (htaken : Taken l.stop (.placed source l.stop.span.stop) ts t m)
    (hpushed : t.kind = .name ∨ m.pushed = none)
    (hfirst : l.tokens.head?.getD l.stop = first) (label : Option Label) :
    LineRead (.placed source l.terminator.span.stop) r (ended source l)
      (parseRest scope l label reports ts) ((statementBehind first label t).outcome r') := by
  subst hr'
  have hbehind := outcome_statementBehind (r :=
    { r with lexer := m, scope := scope, reports := r.reports ++ reports }) h htaken hpushed
    hfirst label
  unfold parseRest
  dsimp only at hbehind
  cases hread : readBody scope l.stop ts with
  | error d =>
      rw [hread] at hbehind
      obtain ⟨s, hs, m', rfl, hrecovers⟩ := hbehind
      rw [hs]
      exact .refused hrecovers rfl rfl
  | ok x =>
      obtain ⟨scope', b, rest'⟩ := x
      rw [hread] at hbehind
      cases rest' with
      | none =>
          dsimp only at hbehind ⊢
          rw [hbehind]
          exact .said rfl
      | some t' =>
          obtain ⟨s, hs, m', rfl, hrecovers⟩ := hbehind
          rw [hs]
          exact .refused hrecovers rfl rfl

/-- **A line is read as `parseLine` reads it.** -/
theorem lineRead_statement (h : l.StandsIn source rest)
    (hahead : Ahead l.stop (.placed source l.stop.span.stop) l.tokens r.lexer) :
    LineRead (.placed source l.terminator.span.stop) r (ended source l) (parseLine r.scope l)
      (statement.outcome r) := by
  have hedge := h.edge
  obtain ⟨first, m, hnext, hm, htaken⟩ := hahead.take
  have hfirst : (tokens nextToken).outcome r = some (.ok first, { r with lexer := m }) :=
    outcome_tokens (outcome_next hnext)
  rw [statement, Reading.outcome_bind_ok hfirst]
  unfold parseLine
  cases hsplit : splitLabel l.tokens with
  | mk label? ts =>
      cases label? with
      | none =>
          have hnone : (splitLabel l.tokens).1 = none := by rw [hsplit]
          obtain ⟨k, hlabel, htaken', hpushed⟩ :=
            outcome_label_none (r := { r with lexer := m }) hedge htaken hm hnone
          have hts : l.tokens = ts := by
            have htokens := splitLabel_of_none hnone
            rw [hsplit] at htokens
            exact htokens.symm
          rw [Reading.outcome_bind_ok hlabel]
          dsimp only
          rw [hts] at htaken'
          refine lineRead_rest h ?_ htaken' hpushed htaken.head none
          rw [List.append_nil]
      | some t =>
          obtain ⟨rfl, hlabel⟩ :=
            outcome_label_some (r := { r with lexer := m }) hedge htaken hsplit
          dsimp only at hlabel ⊢
          cases hdeclare : declareLabel r.scope t with
          | error d =>
              rw [hdeclare] at hlabel
              obtain ⟨s, hs, k, rfl, hrecovers⟩ := hlabel
              rw [Reading.outcome_bind_error hs]
              have hrefused : LineRead (.placed source l.terminator.span.stop) r (ended source l)
                  ⟨r.scope, [d], none⟩ (some (.error d, { r with
                    lexer := k, scope := r.scope, reports := r.reports ++ [] })) :=
                .refused hrecovers rfl rfl
              rw [List.append_nil] at hrefused
              exact hrefused
          | ok x =>
              obtain ⟨scope, reports, name⟩ := x
              rw [hdeclare] at hlabel
              obtain ⟨u, k, hs, htaken', hk⟩ := hlabel
              rw [Reading.outcome_bind_ok hs]
              exact lineRead_rest h rfl htaken' (Or.inr hk) htaken.head name

/-! ### Turns -/

theorem turn_said {s : Option Statement} {r' : Reader}
    (h : statement.outcome r = some (.ok s, r')) :
    turn.run r = some ((), { r' with statements := r'.statements ++ s.toList }) := by
  show (statement.outcome r).bind _ = _
  rw [h]
  rfl

theorem turn_refused {d : Diagnostic} {r' : Reader}
    (h : statement.outcome r = some (.error d, r')) (hrecovers : Recovers e r'.lexer) :
    turn.run r = some ((), { r' with lexer := e, reports := r'.reports ++ [d] }) := by
  have hskip : (tokens recover).outcome { r' with reports := r'.reports ++ [d] } =
      some (.ok (), { r' with lexer := e, reports := r'.reports ++ [d] }) :=
    outcome_tokens hrecovers
  show (statement.outcome r).bind _ = _
  rw [h]
  show ((tokens recover).outcome { r' with reports := r'.reports ++ [d] }).bind _ = _
  rw [hskip]
  rfl

/-- **A turn takes the whole line**, whatever is wrong with it. -/
theorem turn_line (h : l.StandsIn source rest)
    (hahead : Ahead l.stop (.placed source l.stop.span.stop) l.tokens r.lexer) :
    turn.run r = some ((), r.after (parseLine r.scope l) (ended source l)) ∨
      turn.run r = some ((), r.after (parseLine r.scope l)
        (.placed source l.terminator.span.stop)) := by
  have hline := lineRead_statement h hahead
  generalize hresult : parseLine r.scope l = result at hline
  generalize houtcome : statement.outcome r = y at hline
  cases hline with
  | said hs =>
      refine Or.inl ?_
      rw [turn_said houtcome, after, hs]
  | refused hrecovers hds hs =>
      refine Or.inr ?_
      rw [turn_refused houtcome hrecovers, after, hs, hds]
      simp only [Option.toList_none, List.append_nil, List.append_assoc]

/-- Where the file ends in front of a lexer, the line says nothing. -/
theorem parseLine_at_end (h : l.StandsIn source rest)
    (hend : (l.tokens.head?.getD l.stop).kind = .endOfFile) (scope : Scope) :
    l.terminated = false ∧ parseLine scope l = ⟨scope, [], none⟩ := by
  have htokens : l.tokens = [] := by
    cases htokens : l.tokens with
    | nil => rfl
    | cons t ts =>
        rw [htokens] at hend
        have hcode := Line.endsCode_of_mem_code h.unbroken (htokens ▸ List.mem_cons_self)
        have hkind : t.kind = .endOfFile := hend
        rw [hkind] at hcode
        cases hcode
  have hstop : l.stop.kind = .endOfFile := by
    rw [htokens] at hend
    exact hend
  have hcomment : l.comment? = none := by
    cases hcomment : l.comment? with
    | none => rfl
    | some text =>
        rw [Line.stop, hcomment] at hstop
        cases hstop
  refine ⟨?_, ?_⟩
  · rw [Line.stop, hcomment, Line.terminator] at hstop
    cases hl : l.terminated with
    | false => rfl
    | true =>
        rw [hl] at hstop
        cases hstop
  · rw [parseLine, htokens]
    show (⟨scope, [], statementOf? l none none⟩ : LineResult) = _
    rw [statementOf?, Line.commentSpan?, hcomment]
    rfl

theorem step_eq {m : Lexer} (hpeek : r.lexer.peek = (t, m)) :
    step.run r =
      if t.kind = .endOfFile then some (false, { r with lexer := m })
      else (turn.run { r with lexer := m }).map fun x => (true, x.2) := by
  show (do
    set ({ r with lexer := r.lexer.peek.2 } : Reader)
    if r.lexer.peek.1.kind = TokenKind.endOfFile then
      return false
    else
      turn
      return true : StateT Reader Option Bool).run r = _
  rw [hpeek]
  dsimp only
  split
  · rfl
  · show (turn.run { r with lexer := m }).bind (fun x => some (true, x.2)) = _
    cases turn.run { r with lexer := m } <;> rfl

/-- Behind the last line the file ends. -/
theorem peek_at_end (h : Stands source offset []) :
    (Lexer.placed source offset).peek.1.kind = .endOfFile := by
  obtain ⟨t, hnext, hall⟩ := Lexer.next_placed h
  have ht : t = ⟨.endOfFile, [], ⟨offset, 0⟩⟩ := by
    rcases hall with hall | ⟨rest, hall, -⟩
    · exact (List.cons.inj hall).1.symm
    · exact (List.cons.inj hall).1.symm
  rw [Lexer.peek_eq hnext, ht]

/-- **One turn, one line.** From the start of a line a turn ends at the start of the next one, and
adds what the line says. If no line follows, the file ends by then. -/
theorem step_line (h : l.StandsIn source rest) (hr : r.lexer = .placed source l.offset) :
    ∃ more m, step.run r = some (more, r.after (parseLine r.scope l) m) ∧
      (l.terminated = true → more = true ∧ m = .placed source l.terminator.span.stop) ∧
      (l.terminated = false → more = true → m.peek.1.kind = .endOfFile) := by
  obtain ⟨first, k, hnext, hk, htaken⟩ := h.ahead.take
  have hpeek : r.lexer.peek = (first, k.unread first) := by
    rw [hr]
    exact Lexer.peek_eq hnext
  rw [step_eq hpeek]
  by_cases hend : first.kind = .endOfFile
  · obtain ⟨hl, hresult⟩ := parseLine_at_end h (by rw [htaken.head]; exact hend) r.scope
    refine ⟨false, k.unread first, ?_, fun hl' => ?_, fun _ hmore => Bool.noConfusion hmore⟩
    · rw [if_pos hend, hresult, after, Option.toList_none, List.append_nil, List.append_nil]
    · rw [hl] at hl'
      cases hl'
  · rw [if_neg hend]
    rcases turn_line (r := { r with lexer := k.unread first }) h (htaken.putBack hk) with
      hturn | hturn
    · refine ⟨true, ended source l, by rw [hturn]; rfl, fun hl => ⟨rfl, ?_⟩, fun hl _ => ?_⟩
      · rw [ended, hl]
        rfl
      · have hkind : l.terminator.kind = .endOfFile := by rw [Line.terminator, hl]; rfl
        rw [ended, hl, ← hkind]
        rfl
    · refine ⟨true, .placed source l.terminator.span.stop, by rw [hturn]; rfl,
        fun _ => ⟨rfl, rfl⟩, fun hl _ => ?_⟩
      rcases h.ends with ⟨hl', -⟩ | ⟨-, rfl⟩
      · rw [hl] at hl'
        cases hl'
      · have hstop : l.terminator.span.stop = l.endOffset := by
          rw [Line.terminator, hl]
          rfl
        rw [hstop]
        exact peek_at_end h.stands.advance

end Reader

end Chip8.Asm
