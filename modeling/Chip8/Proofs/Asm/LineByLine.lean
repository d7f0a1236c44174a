import Chip8.Proofs.Asm.Errors
import Chip8.Proofs.Asm.Moved
import Chip8.Proofs.Asm.SymbolTable
import Chip8.Proofs.Asm.Turns

/-! # Line by line

Lines are read one at a time, and what is wrong with one of them stays with it.

* `LinesAt`: the lines of a source text stand one behind the other in it, up to its end.
* `reports_parseLine`: of two reports about one line the first is about a label that is declared
  already. `declares_parseLine`: a line declares its label and at most one name behind it, and so
  takes no declaration back (`kept_parseLine`).
* `loop_lines`: the main loop ends behind the last line, with what `parseLines` gives.
* `lines_read_independently` puts these together with what follows for a text behind another one. -/

namespace Chip8.Asm

/-! ### The lines of a text -/

/-- The lines from an offset to the end of a source text, one behind the other. -/
inductive LinesAt (source : List Char) : Nat → List Line → Prop
  | last {l : Line} (stands : l.StandsIn source []) (ends : l.terminated = false) :
      LinesAt source l.offset [l]
  | newline {l : Line} {rest : List Char} {ls : List Line} (stands : l.StandsIn source rest)
      (ends : l.terminated = true) (later : LinesAt source l.terminator.span.stop ls) :
      LinesAt source l.offset (l :: ls)

theorem linesFrom_cases (offset : Nat) (cs : List Char) :
    (∀ c ∈ cs, c ≠ '\n') ∧ linesFrom offset cs = [⟨offset, cs, false⟩] ∨
      ∃ front rest, cs = front ++ '\n' :: rest ∧ (∀ c ∈ front, c ≠ '\n') ∧
        linesFrom offset cs =
          ⟨offset, front, true⟩ :: linesFrom (offset + byteLength front + 1) rest := by
  by_cases hnewline : '\n' ∈ cs
  · obtain ⟨front, rest, rfl, hfront⟩ := List.eq_append_cons_of_mem hnewline
    have hunbroken : ∀ c ∈ front, c ≠ '\n' := fun c hc heq => hfront (heq ▸ hc)
    exact Or.inr ⟨front, rest, rfl, hunbroken, linesFrom_newline hunbroken rest⟩
  · have hunbroken : ∀ c ∈ cs, c ≠ '\n' := fun c hc heq => hnewline (heq ▸ hc)
    exact Or.inl ⟨hunbroken, linesFrom_last hunbroken⟩

theorem linesAt {source cs : List Char} {offset : Nat} (h : Stands source offset cs) :
    LinesAt source offset (linesFrom offset cs) := by
  induction hlength : cs.length using Nat.strongRecOn generalizing offset cs with
  | _ length ih =>
      rcases linesFrom_cases offset cs with ⟨hcs, hlines⟩ | ⟨front, rest, rfl, hfront, hlines⟩
      · have hstands : Line.StandsIn ⟨offset, cs, false⟩ source [] :=
          ⟨by rw [List.append_nil]; exact h, hcs, Or.inr ⟨rfl, rfl⟩⟩
        rw [hlines]
        exact .last hstands rfl
      · have hstands : Line.StandsIn ⟨offset, front, true⟩ source ('\n' :: rest) :=
          ⟨h, hfront, Or.inl ⟨rfl, rest, rfl⟩⟩
        have hshort : rest.length < length := by
          rw [← hlength, List.length_append, List.length_cons]
          omega
        rw [hlines]
        exact .newline hstands rfl (ih _ hshort h.advance.tail rfl)

theorem LinesAt.offset_head {source : List Char} {offset : Nat} {ls : List Line}
    (h : LinesAt source offset ls) : ∀ l ∈ ls.head?, l.offset = offset := by
  intro l hl
  cases h <;> exact congrArg Line.offset (Option.some.inj hl).symm

theorem LinesAt.ne_nil {source : List Char} {offset : Nat} {ls : List Line}
    (h : LinesAt source offset ls) : ls ≠ [] := by
  cases h <;> exact List.cons_ne_nil _ _

/-- A line in the midst of the others stands in the text, and the others behind it. -/
theorem LinesAt.split {source : List Char} {offset : Nat} {before after : List Line} {l : Line}
    (h : LinesAt source offset (before ++ l :: after)) :
    ∃ rest, l.StandsIn source rest ∧
      (l.terminated = false ∧ after = [] ∨
        l.terminated = true ∧ LinesAt source l.terminator.span.stop after) := by
  induction before generalizing offset with
  | nil =>
      cases h with
      | last hstands hends => exact ⟨_, hstands, Or.inl ⟨hends, rfl⟩⟩
      | newline hstands hends hlater => exact ⟨_, hstands, Or.inr ⟨hends, hlater⟩⟩
  | cons k before ih =>
      generalize hls : k :: before ++ l :: after = ls at h
      cases h with
      | last =>
          have hnil := (List.cons.inj hls).2
          exact absurd hnil (List.append_ne_nil_of_right_ne_nil _ (List.cons_ne_nil _ _))
      | newline _ _ hlater =>
          obtain ⟨-, rfl⟩ := List.cons.inj hls
          exact ih hlater

/-- The lines of a text that ends with a newline are the same whatever comes behind it. -/
theorem linesFrom_append (offset : Nat) (as : List Char) :
    ∃ l ls, ∀ bs, linesFrom offset (as ++ '\n' :: bs) =
      l :: ls ++ linesFrom (offset + byteLength as + 1) bs := by
  induction as generalizing offset with
  | nil => exact ⟨⟨offset, [], true⟩, [], fun bs => rfl⟩
  | cons c as ih =>
      obtain ⟨l, ls, hls⟩ := ih (offset + c.utf8Size)
      rw [byteLength_cons, ← Nat.add_assoc offset]
      by_cases hc : c = '\n'
      · refine ⟨⟨offset, [], true⟩, l :: ls, fun bs => ?_⟩
        rw [List.cons_append, linesFrom, if_pos hc, hls bs]
        rfl
      · refine ⟨{ l with offset := offset, chars := c :: l.chars }, ls, fun bs => ?_⟩
        rw [List.cons_append, linesFrom, if_neg hc, hls bs]
        rfl

/-! ### What a line yields -/

variable {scope scope' : Scope} {stop t : Token} {ts : List Token} {l : Line} {rest : Option Token}

/-- The report of a label that is declared already. -/
def DuplicateLabel (scope : Scope) (l : Line) (d : Diagnostic) : Prop :=
  ∃ t name s, (splitLabel l.tokens).1 = some t ∧ identifierOf t = .ok name ∧
    scope.symbols.get? name = some s ∧ d = ⟨.duplicateSymbol name s.span, t.span⟩

/-- A declaration is refused only if the name is declared already. -/
theorem duplicate_of_declare {kind : SymbolKind} {label : Label} {d : Diagnostic}
    (h : scope.declare kind label = .error d) :
    ∃ s, scope.symbols.get? label.name = some s ∧
      d = ⟨.duplicateSymbol label.name s.span, label.span⟩ := by
  unfold Scope.declare SymbolTable.declare at h
  cases hget : scope.symbols.get? label.name with
  | none =>
      rw [hget] at h
      cases h
  | some s =>
      rw [hget] at h
      cases h
      exact ⟨s, rfl, rfl⟩

theorem reports_declareLabel {reports : List Diagnostic} {label : Option Label}
    (h : declareLabel scope t = .ok (scope', reports, label))
    (hlabel : (splitLabel l.tokens).1 = some t) :
    ∃ duplicate : Option Diagnostic, reports = duplicate.toList ∧
      ∀ d ∈ duplicate, DuplicateLabel scope l d := by
  unfold declareLabel at h
  split at h
  · cases h
  · obtain ⟨name, hname, h⟩ := bind_eq_ok h
    split at h
    · cases h
      exact ⟨none, rfl, fun d hd => by cases hd⟩
    · rename_i d hd
      cases h
      obtain ⟨s, hs, hcause⟩ := duplicate_of_declare hd
      refine ⟨some d, rfl, fun d' hd' => ?_⟩
      cases hd'
      exact ⟨t, name, s, hlabel, hname, hs, hcause⟩

theorem reports_parseRest (scope : Scope) (l : Line) (label : Option Label)
    (reports : List Diagnostic) (ts : List Token) :
    ∃ other : Option Diagnostic,
      (parseRest scope l label reports ts).diagnostics = reports ++ other.toList ∧
        (other.isSome = true → (parseRest scope l label reports ts).statement = none) := by
  unfold parseRest
  split
  · rename_i d _
    exact ⟨some d, rfl, fun _ => rfl⟩
  · rename_i t _
    exact ⟨some (.unexpected t "end of line"), rfl, fun _ => rfl⟩
  · exact ⟨none, (List.append_nil _).symm, fun h => by cases h⟩

/-- **A line has at most one error beside that of a label declared twice**, and with it no
statement. -/
theorem reports_parseLine (scope : Scope) (l : Line) :
    ∃ duplicate other : Option Diagnostic,
      (parseLine scope l).diagnostics = duplicate.toList ++ other.toList ∧
        (∀ d ∈ duplicate, DuplicateLabel scope l d) ∧
        (other.isSome = true → (parseLine scope l).statement = none) := by
  unfold parseLine
  split
  · obtain ⟨other, hreports, hnone⟩ := reports_parseRest scope l none [] _
    exact ⟨none, other, hreports, (fun d hd => by cases hd), hnone⟩
  · rename_i t ts hsplit
    have hlabel : (splitLabel l.tokens).1 = some t := by rw [hsplit]
    cases hdeclare : declareLabel scope t with
    | error d => exact ⟨none, some d, rfl, (fun d hd => by cases hd), fun _ => rfl⟩
    | ok x =>
        obtain ⟨scope', reports, label⟩ := x
        obtain ⟨duplicate, rfl, hduplicate⟩ := reports_declareLabel hdeclare hlabel
        obtain ⟨other, hreports, hnone⟩ :=
          reports_parseRest scope' l label duplicate.toList ts
        exact ⟨duplicate, other, hreports, hduplicate, hnone⟩

/-! ### What a line declares -/

/-- What a declaration does to the names. -/
inductive Scope.Declares (scope : Scope) : Scope → Prop
  | nothing : Declares scope scope
  | symbol {kind : SymbolKind} {label : Label} {symbols : SymbolTable}
      (declared : scope.symbols.declare label.name kind label.span = .ok symbols)
      (unreserved : kind = .label → Keyword.ofWord? label.name.chars = none) :
      Declares scope { scope with symbols := symbols }
  | register {name : Identifier} (number : UInt8)
      (unreserved : Keyword.ofWord? name.chars = none) :
      Declares scope { scope with aliases := (name, number) :: scope.aliases }

theorem Scope.declares_declare {kind : SymbolKind} {label : Label}
    (hword : kind = .label → Keyword.ofWord? label.name.chars = none)
    (h : scope.declare kind label = .ok scope') : scope.Declares scope' := by
  unfold declare at h
  split at h
  · rename_i hdeclared
    cases h
    exact .symbol hdeclared hword
  · cases h
  · cases h

theorem declares_declareLabel {reports : List Diagnostic} {label : Option Label}
    (h : declareLabel scope t = .ok (scope', reports, label)) : scope.Declares scope' := by
  unfold declareLabel at h
  split at h
  · cases h
  · rename_i hword
    obtain ⟨name, hname, h⟩ := bind_eq_ok h
    split at h
    · rename_i hdeclare
      cases h
      refine Scope.declares_declare (fun _ => ?_) hdeclare
      rw [identifierOf_eq_ok hname]
      simpa using hword
    · cases h
      exact .nothing

theorem declares_readConstant {b : Body} {rest : Option Token}
    (h : readConstant scope stop ts = .ok (scope', b, rest)) : scope.Declares scope' := by
  obtain ⟨t, ts₁, i, comma, ts₂, n, -, -, -, -, -, hdeclare⟩ := readConstant_eq_ok.mp h
  exact Scope.declares_declare (fun hkind => by cases hkind) hdeclare

theorem declares_readAlias {rest : Option Token}
    (h : readAlias scope stop ts = .ok (scope', rest)) : scope.Declares scope' := by
  obtain ⟨t, ts₁, i, comma, ts₂, r, rfl, -, hi, hword, -⟩ := readAlias_eq_ok h
  refine .register _ ?_
  rw [identifierOf_eq_ok hi]
  exact hword

theorem declares_readBody {b : Option Body} {rest : Option Token}
    (h : readBody scope stop ts = .ok (scope', b, rest)) : scope.Declares scope' := by
  rcases readBody_cases h with ⟨rfl, -⟩ | ⟨t, us, rfl, ⟨-, rfl, -⟩ | ⟨-, hread⟩⟩
  · exact .nothing
  · exact .nothing
  · cases readDirective_eq_ok.mp hread with
    | constant _ hconstant => exact declares_readConstant hconstant
    | registerAlias _ halias => exact declares_readAlias halias
    | only => exact .nothing
    | all => exact .nothing

theorem declares_parseRest (scope : Scope) (l : Line) (label : Option Label)
    (reports : List Diagnostic) (ts : List Token) :
    scope.Declares (parseRest scope l label reports ts).scope := by
  unfold parseRest
  split
  · exact .nothing
  · rename_i hread
    exact declares_readBody hread
  · rename_i hread
    exact declares_readBody hread

/-- **A line declares its label, and at most one name behind it.** -/
theorem declares_parseLine (scope : Scope) (l : Line) :
    ∃ s, scope.Declares s ∧ s.Declares (parseLine scope l).scope := by
  unfold parseLine
  split
  · exact ⟨scope, .nothing, declares_parseRest scope l none [] _⟩
  · rename_i t ts _
    cases hdeclare : declareLabel scope t with
    | error d => exact ⟨scope, .nothing, .nothing⟩
    | ok x => exact ⟨x.1, declares_declareLabel hdeclare, declares_parseRest x.1 l x.2.2 x.2.1 ts⟩

/-- `scope'` has the symbols of `scope` and maybe more behind them. -/
def Scope.Kept (scope scope' : Scope) : Prop := scope.symbols.symbols <+: scope'.symbols.symbols

theorem Scope.Kept.refl (scope : Scope) : scope.Kept scope := List.prefix_rfl

theorem Scope.Declares.kept (h : scope.Declares scope') : scope.Kept scope' := by
  cases h with
  | nothing => exact .refl scope
  | symbol hdeclared _ =>
      rw [Scope.Kept, (SymbolTable.symbols_declare hdeclared).2]
      exact List.prefix_append _ _
  | register _ _ => exact .refl scope

/-- **A line takes no declaration back.** -/
theorem kept_parseLine (scope : Scope) (l : Line) : scope.Kept (parseLine scope l).scope := by
  obtain ⟨s, hlabel, hbody⟩ := declares_parseLine scope l
  exact hlabel.kept.trans hbody.kept

/-! ### Line after line -/

/-- The names declared behind lines. -/
def Scope.behind (scope : Scope) (ls : List Line) : Scope :=
  ls.foldl (fun scope l => (parseLine scope l).scope) scope

theorem Scope.behind_append (scope : Scope) (ks ls : List Line) :
    scope.behind (ks ++ ls) = (scope.behind ks).behind ls :=
  List.foldl_append

theorem symbols_parseLines (scope : Scope) (ls : List Line) :
    (parseLines scope ls).symbols = (scope.behind ls).symbols := by
  induction ls generalizing scope with
  | nil => rfl
  | cons l ls ih => exact ih (parseLine scope l).scope

theorem kept_behind (scope : Scope) (ls : List Line) : scope.Kept (scope.behind ls) := by
  induction ls generalizing scope with
  | nil => exact .refl scope
  | cons l ls ih => exact (kept_parseLine scope l).trans (ih (parseLine scope l).scope)

/-- Later lines are read with the names that earlier ones declare, and with nothing else of them. -/
theorem parseLines_append (scope : Scope) (ks ls : List Line) :
    parseLines scope (ks ++ ls) =
      ⟨(parseLines scope ks).statements ++ (parseLines (scope.behind ks) ls).statements,
        (parseLines (scope.behind ks) ls).symbols,
        (parseLines scope ks).diagnostics ++ (parseLines (scope.behind ks) ls).diagnostics⟩ := by
  induction ks generalizing scope with
  | nil => rfl
  | cons k ks ih =>
      rw [List.cons_append, parseLines, parseLines, ih]
      simp only [List.append_assoc]
      rfl

namespace Reader

variable {r r' : Reader} {source : List Char} {offset : Nat}

/-- The reader behind lines, with what they say. -/
def afterLines (r : Reader) (ls : List Line) (m : Lexer) : Reader :=
  ⟨m, r.scope.behind ls, r.statements ++ (parseLines r.scope ls).statements,
    r.reports ++ (parseLines r.scope ls).diagnostics⟩

theorem afterLines_cons (r : Reader) (l : Line) (ls : List Line) (k m : Lexer) :
    (r.after (parseLine r.scope l) k).afterLines ls m = r.afterLines (l :: ls) m := by
  rw [afterLines, afterLines, after, parseLines]
  simp only [List.append_assoc]
  rfl

theorem afterLines_single (r : Reader) (l : Line) (m : Lexer) :
    r.after (parseLine r.scope l) m = r.afterLines [l] m := by
  rw [afterLines, after, parseLines, parseLines]
  simp only [List.append_nil]
  rfl

theorem loop_of_step {more : Bool} (h : step.run r = some (more, r')) :
    loop.run r = if more then loop.run r' else some ((), r') := by
  have hloop : loop.run r = (step.run r).bind fun x =>
      if x.1 then loop.run x.2 else some ((), x.2) := by
    conv_lhs => rw [loop]
    show (step.run r).bind _ = _
    congr 1
    funext ⟨more, s⟩
    cases more <;> rfl
  rw [hloop, h]
  rfl

theorem loop_at_end (h : r.lexer.peek.1.kind = .endOfFile) :
    ∃ m, loop.run r = some ((), { r with lexer := m }) := by
  have hstep := step_eq (r := r) (t := r.lexer.peek.1) (m := r.lexer.peek.2) rfl
  rw [if_pos h] at hstep
  exact ⟨r.lexer.peek.2, loop_of_step hstep⟩

/-- **The loop ends**, behind the last line. The induction is on the lines: every turn but the one
at the end of the file takes one of them. -/
theorem loop_lines {ls : List Line} (h : LinesAt source offset ls)
    (hr : r.lexer = .placed source offset) :
    ∃ m, loop.run r = some ((), r.afterLines ls m) := by
  induction h generalizing r with
  | @last l hstands hends =>
      obtain ⟨more, m, hstep, -, hend⟩ := step_line hstands hr
      cases more with
      | false => exact ⟨m, by rw [loop_of_step hstep, afterLines_single]; rfl⟩
      | true =>
          obtain ⟨k, hloop⟩ :=
            loop_at_end (r := r.after (parseLine r.scope l) m) (hend hends rfl)
          refine ⟨k, ?_⟩
          rw [loop_of_step hstep, if_pos rfl, hloop, ← afterLines_single]
          rfl
  | @newline l rest ls hstands hends _ ih =>
      obtain ⟨more, m, hstep, hturn, -⟩ := step_line hstands hr
      obtain ⟨rfl, rfl⟩ := hturn hends
      obtain ⟨k, hloop⟩ := ih (r := r.after (parseLine r.scope l)
        (.placed source l.terminator.span.stop)) rfl
      refine ⟨k, ?_⟩
      rw [loop_of_step hstep, if_pos rfl, hloop, afterLines_cons]

/-- A turn takes one of the lines of a source text and stops in front of the next one. -/
theorem step_lines {ls before after : List Line} {l : Line} (h : LinesAt source offset ls)
    (hls : ls = before ++ l :: after) (hr : r.lexer = .placed source l.offset) :
    ∃ more m, step.run r = some (more, r.after (parseLine r.scope l) m) ∧
      (∀ next ∈ after.head?, more = true ∧ m = .placed source next.offset) ∧
      (after = [] → more = true → m.peek.1.kind = .endOfFile) := by
  subst hls
  obtain ⟨rest, hstands, hafter⟩ := h.split
  obtain ⟨more, m, hstep, hturn, hend⟩ := step_line hstands hr
  refine ⟨more, m, hstep, fun next hnext => ?_, fun hnil => ?_⟩
  · rcases hafter with ⟨-, rfl⟩ | ⟨hl, hlater⟩
    · cases hnext
    · rw [hlater.offset_head next hnext]
      exact hturn hl
  · rcases hafter with ⟨hl, -⟩ | ⟨-, hlater⟩
    · exact hend hl
    · exact absurd hnil hlater.ne_nil

theorem loop_ofText (source : String) :
    ∃ m, loop.run (.ofText source) =
      some ((), (Reader.ofText source).afterLines (lines source) m) :=
  loop_lines (linesAt (stands_start source.toList)) rfl

/-- **Token by token or line by line, a source text says the same.** -/
theorem parse_eq (source : String) : Reader.parse source = some (Asm.parse source) := by
  obtain ⟨m, hloop⟩ := loop_ofText source
  rw [parse, hloop]
  show some (⟨_, (Scope.empty.behind (lines source)).symbols, _⟩ : Parsed) = _
  rw [← symbols_parseLines]
  rfl

end Reader

/-! ### One text behind another -/

/-- The lines of a text behind one that ends with a newline. -/
theorem lines_append (a : String) :
    ∃ ls, parse (a ++ "\n") = parseLines .empty ls ∧
      Scope.empty.behind (lines (a ++ "\n")) = Scope.empty.behind ls ∧
      ∀ b, lines (a ++ "\n" ++ b) =
        ls ++ (lines b).map (Line.moved (byteLength (a ++ "\n").toList)) := by
  obtain ⟨l, ls, hls⟩ := linesFrom_append 0 a.toList
  have hlength : 0 + byteLength a.toList + 1 = 0 + byteLength (a ++ "\n").toList := by
    rw [String.toList_append, byteLength_append, Nat.add_assoc]
    rfl
  rw [hlength] at hls
  have hlines : ∀ b : String, lines (a ++ "\n" ++ b) =
      l :: ls ++ (lines b).map (Line.moved (byteLength (a ++ "\n").toList)) := by
    intro b
    rw [lines, lines, ← linesFrom_moved, ← hls, String.toList_append, String.toList_append,
      List.append_assoc]
    rfl
  have hnothing := hlines ""
  rw [String.append_empty] at hnothing
  refine ⟨l :: ls, ?_, ?_, hlines⟩
  · rw [parse, hnothing, parseLines_append]
    show (⟨_ ++ [], _, _ ++ []⟩ : Parsed) = _
    rw [List.append_nil, List.append_nil]
    show (⟨_, (Scope.empty.behind (l :: ls)).symbols, _⟩ : Parsed) = _
    rw [← symbols_parseLines]
  · rw [hnothing, Scope.behind_append]
    rfl

/-- What a text says behind another one: what the other says, and what it says itself with the names
that the other declares. -/
theorem parse_append (a b : String) :
    ∃ p, p = parseLines (Scope.empty.behind (lines (a ++ "\n")))
        ((lines b).map (Line.moved (byteLength (a ++ "\n").toList))) ∧
      parse (a ++ "\n" ++ b) = ⟨(parse (a ++ "\n")).statements ++ p.statements, p.symbols,
        (parse (a ++ "\n")).diagnostics ++ p.diagnostics⟩ := by
  obtain ⟨ls, hparse, hscope, hlines⟩ := lines_append a
  refine ⟨_, rfl, ?_⟩
  rw [parse, hlines, parseLines_append, ← hparse, hscope]

theorem prefix_parse_append (a b : String) :
    (parse (a ++ "\n")).statements <+: (parse (a ++ "\n" ++ b)).statements ∧
      (parse (a ++ "\n")).symbols.symbols <+: (parse (a ++ "\n" ++ b)).symbols.symbols ∧
      (parse (a ++ "\n")).diagnostics <+: (parse (a ++ "\n" ++ b)).diagnostics := by
  obtain ⟨p, hp, hparse⟩ := parse_append a b
  have hsymbols : (parse (a ++ "\n")).symbols.symbols <+: p.symbols.symbols := by
    rw [parse, symbols_parseLines, hp, symbols_parseLines]
    exact kept_behind _ _
  rw [hparse]
  exact ⟨List.prefix_append _ _, hsymbols, List.prefix_append _ _⟩

/-- Behind a text that declares nothing, a text says what it says on its own, further behind. -/
theorem parse_append_of_empty {a : String} (h : Scope.empty.behind (lines (a ++ "\n")) = .empty)
    (b : String) :
    parse (a ++ "\n" ++ b) =
      ⟨(parse (a ++ "\n")).statements ++
          (parse b).statements.map (Statement.moved (byteLength (a ++ "\n").toList)),
        (parse b).symbols.moved (byteLength (a ++ "\n").toList),
        (parse (a ++ "\n")).diagnostics ++
          (parse b).diagnostics.map (Diagnostic.moved (byteLength (a ++ "\n").toList))⟩ := by
  obtain ⟨p, hp, hparse⟩ := parse_append a b
  have hmoved := parseLines_moved (byteLength (a ++ "\n").toList) .empty (lines b)
  rw [Scope.moved_empty, ← h, ← hp, h] at hmoved
  rw [hparse, hmoved]
  rfl

/-! ### Independence -/

/-- **Lines are read independently.** A turn of the main loop takes exactly one line, of which there
is at most one statement, and at most one error beside that of a label declared twice. So the loop
ends. What a text says is what it says in front of any other one; behind a text that declares
nothing, the other says what it says on its own, at places further behind. -/
theorem lines_read_independently :
    (∀ source before l after, lines source = before ++ l :: after →
      ∀ r : Reader, r.lexer = .placed source.toList l.offset →
        ∃ more m, Reader.step.run r = some (more, r.after (parseLine r.scope l) m) ∧
          (∀ next ∈ after.head?, more = true ∧ m = .placed source.toList next.offset) ∧
          (after = [] → more = true → m.peek.1.kind = .endOfFile)) ∧
    (∀ scope l, ∃ duplicate other : Option Diagnostic,
      (parseLine scope l).diagnostics = duplicate.toList ++ other.toList ∧
        (∀ d ∈ duplicate, DuplicateLabel scope l d) ∧
        (other.isSome = true → (parseLine scope l).statement = none)) ∧
    (∀ source, Reader.parse source = some (parse source)) ∧
    (∀ a b,
      (parse (a ++ "\n")).statements <+: (parse (a ++ "\n" ++ b)).statements ∧
      (parse (a ++ "\n")).symbols.symbols <+: (parse (a ++ "\n" ++ b)).symbols.symbols ∧
      (parse (a ++ "\n")).diagnostics <+: (parse (a ++ "\n" ++ b)).diagnostics) ∧
    (∀ a b r, Reader.loop.run (.ofText (a ++ "\n")) = some ((), r) → r.scope = .empty →
      parse (a ++ "\n" ++ b) =
        ⟨(parse (a ++ "\n")).statements ++
            (parse b).statements.map (Statement.moved (byteLength (a ++ "\n").toList)),
          (parse b).symbols.moved (byteLength (a ++ "\n").toList),
          (parse (a ++ "\n")).diagnostics ++
            (parse b).diagnostics.map (Diagnostic.moved (byteLength (a ++ "\n").toList))⟩) ∧
    (∀ k name previous, (Cause.moved k (.duplicateSymbol name previous)).help =
      some ("the first declaration is at offset " ++ Numeral.decimal (previous.start + k))) := by
  refine ⟨fun source before l after hlines r hr => ?_, reports_parseLine, Reader.parse_eq,
    prefix_parse_append, fun a b r hloop hempty => ?_, fun k name previous => rfl⟩
  · exact Reader.step_lines (linesAt (stands_start source.toList)) hlines hr
  · obtain ⟨m, hm⟩ := Reader.loop_ofText (a ++ "\n")
    rw [hloop] at hm
    cases hm
    exact parse_append_of_empty hempty b

/-- Two errors, and a text of its own behind them in which a label is declared twice. -/
theorem lines_read_independently_behind_errors :
    (∃ more m, Reader.step.run (.ofText "ld v0,\nx:") =
        some (more, (Reader.ofText "ld v0,\nx:").after
          (parseLine .empty ⟨0, "ld v0,".toList, true⟩) m) ∧
      more = true ∧ m = .placed "ld v0,\nx:".toList 7) ∧
    (∃ r, Reader.loop.run (.ofText ("ld v0,\ncls cls" ++ "\n")) = some ((), r) ∧
      r.scope = .empty) ∧
    parse ("ld v0,\ncls cls" ++ "\n" ++ "x: cls\nx: ret") =
      ⟨(parse ("ld v0,\ncls cls" ++ "\n")).statements ++
          (parse "x: cls\nx: ret").statements.map (Statement.moved 15),
        (parse "x: cls\nx: ret").symbols.moved 15,
        (parse ("ld v0,\ncls cls" ++ "\n")).diagnostics ++
          (parse "x: cls\nx: ret").diagnostics.map (Diagnostic.moved 15)⟩ := by
  obtain ⟨more, m, hstep, hnext, -⟩ := lines_read_independently.1 "ld v0,\nx:" []
    ⟨0, "ld v0,".toList, true⟩ [⟨7, "x:".toList, false⟩] rfl (.ofText "ld v0,\nx:") rfl
  obtain ⟨k, hloop⟩ := Reader.loop_ofText ("ld v0,\ncls cls" ++ "\n")
  refine ⟨⟨more, m, hstep, hnext _ rfl⟩, ⟨_, hloop, rfl⟩, ?_⟩
  exact lines_read_independently.2.2.2.2.1 "ld v0,\ncls cls" "x: cls\nx: ret" _ hloop rfl

end Chip8.Asm
