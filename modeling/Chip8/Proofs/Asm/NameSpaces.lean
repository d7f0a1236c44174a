import Chip8.Proofs.Asm.Declarations
import Chip8.Proofs.Asm.LineByLine

/-! # Name spaces

Names that a source text declares are symbols or aliases of registers, in two tables that do not
know of each other.

* `Scope.Unreserved`: labels and aliases are no reserved words. Every declaration keeps this
  (`Scope.Declares`), and so do all lines.
* `readOperand_bare`: as an operand on its own a name is the register that it is an alias of, or
  else the symbol. What is declared below does not matter (`Aliases.operand`).
* `operands_of_noErrors`: a line without errors has the operands that are read from its pieces. -/

namespace Chip8.Asm

variable {scope scope' : Scope} {stop t : Token} {ts : List Token} {l : Line}

/-! ### Reserved words -/

/-- Labels and aliases are no reserved words. -/
structure Scope.Unreserved (scope : Scope) : Prop where
  labels : ∀ s ∈ scope.symbols.symbols, s.kind = .label → Keyword.ofWord? s.name.chars = none
  aliases : ∀ a ∈ scope.aliases, Keyword.ofWord? a.1.chars = none

theorem Scope.unreserved_empty : Scope.empty.Unreserved :=
  ⟨fun _ h => (nomatch h), fun _ h => (nomatch h)⟩

theorem Scope.Unreserved.declares (hscope : scope.Unreserved) (h : scope.Declares scope') :
    scope'.Unreserved := by
  cases h with
  | nothing => exact hscope
  | @symbol kind label symbols hdeclared hword =>
      refine ⟨fun s hs hkind => ?_, hscope.aliases⟩
      rw [(SymbolTable.symbols_declare hdeclared).2, List.mem_append, List.mem_singleton] at hs
      rcases hs with hs | rfl
      · exact hscope.labels s hs hkind
      · exact hword hkind
  | register number hword =>
      refine ⟨hscope.labels, fun a ha => ?_⟩
      rcases List.mem_cons.mp ha with rfl | ha
      · exact hword
      · exact hscope.aliases a ha

/-- **No label and no alias of a source text is a reserved word.** The induction is on the lines. -/
theorem Scope.Unreserved.behind (hscope : scope.Unreserved) (ls : List Line) :
    (scope.behind ls).Unreserved := by
  induction ls generalizing scope with
  | nil => exact hscope
  | cons l ls ih =>
      obtain ⟨s, hlabel, hbody⟩ := declares_parseLine scope l
      exact ih ((hscope.declares hlabel).declares hbody)

/-! ### Names as operands -/

/-- The tokens of a name. -/
def Identifier.bare (i : Identifier) : List Face := [(.name, i.chars)]

variable {i : Identifier}

/-- The operand that a name on its own is, if it is no reserved word. -/
def Aliases.operand (aliases : Aliases) (i : Identifier) (s : Span) : Node :=
  match aliases.get? i with
  | some r => .register r s
  | none => .name i s

/-- **A name on its own** is the register that it is an alias of, or else a symbol. -/
theorem readOperand_bare (aliases : Aliases) (hword : Keyword.ofWord? i.chars = none) {t : Token}
    (ht : t.face = (.name, i.chars)) (stop : Token) :
    readOperand aliases ⟨[t], stop⟩ = .ok (aliases.operand i t.span, []) := by
  obtain ⟨hkind, hchars⟩ := Prod.mk.inj ht
  have hread : wordOperand aliases t = .ok (aliases.operand i t.span) := by
    unfold wordOperand Aliases.operand
    rw [hchars, hword]
    dsimp only
    rw [identifierOf, hchars, Identifier.ofChars?_chars]
    dsimp only
    cases aliases.get? i with
    | none => rfl
    | some r => rfl
  unfold readOperand
  simp only [hkind]
  rw [hread]
  rfl

/-- If the operand is a name on its own and no reserved word, the tree is the register that the name
is an alias of, or else the symbol, which stands for its value. -/
def Denotes (aliases : Aliases) (p : Piece) (n : Node) : Prop :=
  ∀ i : Identifier, p.tokens.map Token.face = i.bare → Keyword.ofWord? i.chars = none →
    match aliases.get? i with
    | some r => ∃ s, n = .register r s
    | none => (∃ s, n = .name i s) ∧ ∀ T v, T.lookup i = .value v → n.numberIn T = .ok v

theorem denotes_of_readOperand {aliases : Aliases} {p : Piece} {n : Node}
    (h : readOperand aliases p = .ok (n, [])) : Denotes aliases p n := by
  intro i hp hword
  obtain ⟨ts, stop⟩ := p
  obtain ⟨t, rfl, ht⟩ := List.map_eq_singleton_iff.mp hp
  rw [readOperand_bare aliases hword ht] at h
  cases h
  unfold Aliases.operand
  cases aliases.get? i with
  | some r => exact ⟨t.span, rfl⟩
  | none =>
      refine ⟨⟨t.span, rfl⟩, fun T v hv => ?_⟩
      simp only [Node.numberIn, Node.evaluate, hv]

/-- The pieces that the operands of an instruction are read from. -/
def operandPieces (stop : Token) (ts : List Token) : List Piece :=
  if ts.isEmpty then [] else pieces stop ts

theorem readOperands_eq (aliases : Aliases) (stop : Token) (ts : List Token) :
    readOperands aliases stop ts = readPieces (readOperand aliases) (operandPieces stop ts) := by
  unfold readOperands operandPieces
  split <;> rfl

/-! ### Lines without errors -/

theorem body_of_parseRest {label : Option Label} {reports : List Diagnostic} {ts : List Token}
    (hok : hasErrors (parseRest scope l label reports ts).diagnostics = false) :
    ∃ s body, readBody scope l.stop ts = .ok (s, body, none) ∧
      (parseRest scope l label reports ts).statement = statementOf? l label body := by
  unfold parseRest at hok ⊢
  cases hread : readBody scope l.stop ts with
  | error d =>
      have herror := refuses_readBody scope l.stop ts d hread
      simp [hread, hasErrors, herror] at hok
  | ok x =>
      obtain ⟨s, body, rest⟩ := x
      cases rest with
      | none => exact ⟨s, body, rfl, rfl⟩
      | some t =>
          simp only [hread, hasErrors_append, Bool.or_eq_false_iff] at hok
          cases hok.2

/-- A line without errors asks for what is read behind its label, with the aliases declared above. -/
theorem body_of_noErrors (hok : hasErrors (parseLine scope l).diagnostics = false) :
    ∃ s s' label body, s.aliases = scope.aliases ∧
      readBody s l.stop (splitLabel l.tokens).2 = .ok (s', body, none) ∧
      (parseLine scope l).statement = statementOf? l label body := by
  unfold parseLine at hok ⊢
  generalize splitLabel l.tokens = x at hok ⊢
  obtain ⟨label?, ts⟩ := x
  cases label? with
  | none =>
      obtain ⟨s', body, hread, hstatement⟩ := body_of_parseRest hok
      exact ⟨scope, s', none, body, rfl, hread, hstatement⟩
  | some t =>
      dsimp only at hok ⊢
      cases hlabel : declareLabel scope t with
      | error d =>
          have herror := refuses_declareLabel scope t d hlabel
          simp [hlabel, hasErrors, herror] at hok
      | ok x =>
          obtain ⟨s, reports, label⟩ := x
          rw [hlabel] at hok
          obtain ⟨s', body, hread, hstatement⟩ := body_of_parseRest hok
          exact ⟨s, s', label, body, aliases_declareLabel hlabel, hread, hstatement⟩

/-- A list of operands that is read up to the end is read piece by piece. -/
theorem read_of_readPieces {read : Piece → Except Diagnostic (Node × List Token)}
    {ps : List Piece} {ns : List Node} (h : readPieces read ps = .ok (ns, none)) :
    List.Forall₂ (fun p n => read p = .ok (n, [])) ps ns := by
  induction ps generalizing ns with
  | nil =>
      cases h
      exact .nil
  | cons p ps ih =>
      unfold readPieces at h
      split at h
      · cases h
      · cases h
      · rename_i n hn
        split at h
        · cases h
        · rename_i ms rest hms
          cases h
          exact .cons hn (ih hms)

/-- **An instruction in a line without errors** has the operands that are read from its pieces. -/
theorem operands_of_noErrors (hok : hasErrors (parseLine scope l).diagnostics = false) {t : Token}
    {ts : List Token} (hcode : (splitLabel l.tokens).2 = t :: ts) (hname : t.kind = .name) :
    ∃ s form ns, (parseLine scope l).statement = some s ∧ s.body = some (.instruction form ns) ∧
      List.Forall₂ (fun p n => readOperand scope.aliases p = .ok (n, []))
        (operandPieces l.stop ts) ns := by
  obtain ⟨above, s', label, body, haliases, hread, hstatement⟩ := body_of_noErrors hok
  rw [hcode] at hread
  rcases readBody_cases hread with
    ⟨-, -, hrest⟩ | ⟨u, us, heq, ⟨-, -, b, rfl, hinstruction⟩ | ⟨hdirective, -⟩⟩
  · cases hrest
  · cases heq
    obtain ⟨form, ns, rfl, -, hoperands, -⟩ := readInstruction_eq_ok.mp hinstruction
    rw [readOperands_eq, haliases] at hoperands
    have hsome : ∃ s, statementOf? l label (some (.instruction form ns)) = some s := by
      simp [statementOf?]
    obtain ⟨s, hs⟩ := hsome
    exact ⟨s, form, ns, hstatement.trans hs, body_of_statementOf? hs, read_of_readPieces hoperands⟩
  · cases heq
    rw [hname] at hdirective
    cases hdirective

/-! ### Sources -/

/-- What a source text says around one of its lines. -/
theorem parse_around {source : String} {before after : List Line}
    (h : lines source = before ++ l :: after) :
    parse source =
      ⟨(parseLines .empty before).statements ++
          ((parseLine (Scope.empty.behind before) l).statement.toList ++
            (parseLines (parseLine (Scope.empty.behind before) l).scope after).statements),
        (parseLines (parseLine (Scope.empty.behind before) l).scope after).symbols,
        (parseLines .empty before).diagnostics ++
          ((parseLine (Scope.empty.behind before) l).diagnostics ++
            (parseLines (parseLine (Scope.empty.behind before) l).scope after).diagnostics)⟩ := by
  rw [parse, h, parseLines_append]
  rfl

theorem line_of_source {source : String} {before after : List Line}
    (h : lines source = before ++ l :: after) (hok : hasErrors (parse source).diagnostics = false) :
    hasErrors (parseLine (Scope.empty.behind before) l).diagnostics = false ∧
      ∀ s, (parseLine (Scope.empty.behind before) l).statement = some s →
        s ∈ (parse source).statements := by
  rw [parse_around h] at hok ⊢
  simp only [hasErrors_append, Bool.or_eq_false_iff] at hok
  refine ⟨hok.2.1, fun s hs => ?_⟩
  rw [hs]
  simp

end Chip8.Asm
