import Chip8.Proofs.Asm.AlikeReading

/-! # Lines at another place

Lines that stand further behind in a source text say the same, at places further behind.

* `Likeness.moved k` is about readings in which every place is `k` bytes further behind and nothing
  else differs. What is alike in this sense is equal to what was moved (`Node.eq_moved` and so on).
* `parseLine_moved` is a line, `parseLines_moved` are all lines of a text. -/

namespace Chip8.Asm

/-! ### Moving -/

def Span.moved (k : Nat) (s : Span) : Span := ⟨s.start + k, s.len⟩

def Token.moved (k : Nat) (t : Token) : Token := { t with span := t.span.moved k }

def Line.moved (k : Nat) (l : Line) : Line := { l with offset := l.offset + k }

namespace Node

mutual

def moved (k : Nat) : Node → Node
  | number v s => number v (s.moved k)
  | register r s => register r (s.moved k)
  | keyword w s => keyword w (s.moved k)
  | name i s => name i (s.moved k)
  | apply op ns s => apply op (movedAll k ns) (s.moved k)

def movedAll (k : Nat) : List Node → List Node
  | [] => []
  | n :: ns => n.moved k :: movedAll k ns

end

end Node

def Label.moved (k : Nat) (a : Label) : Label := { a with span := a.span.moved k }

def Body.moved (k : Nat) : Body → Body
  | .instruction form operands => .instruction form (operands.map (Node.moved k))
  | .constant name value => .constant (name.moved k) (value.moved k)
  | .origin n => .origin (n.moved k)
  | .bytes values => .bytes (values.map (Node.moved k))
  | .words values => .words (values.map (Node.moved k))
  | .reserve n => .reserve (n.moved k)

def Statement.moved (k : Nat) (s : Statement) : Statement :=
  ⟨s.label.map (Label.moved k), s.body.map (Body.moved k), s.comment.map (Span.moved k),
    s.span.moved k⟩

def Symbol.moved (k : Nat) (s : Symbol) : Symbol := { s with span := s.span.moved k }

def SymbolTable.moved (k : Nat) (T : SymbolTable) : SymbolTable :=
  ⟨T.symbols.map (Symbol.moved k)⟩

def Scope.moved (k : Nat) (scope : Scope) : Scope := ⟨scope.symbols.moved k, scope.aliases⟩

/-- Of the causes that reading finds only one names another place: that of the first declaration. -/
def Cause.moved (k : Nat) : Cause → Cause
  | .duplicateSymbol name previous => .duplicateSymbol name (previous.moved k)
  | c => c

def Diagnostic.moved (k : Nat) (d : Diagnostic) : Diagnostic := ⟨d.cause.moved k, d.span.moved k⟩

def LineResult.moved (k : Nat) (r : LineResult) : LineResult :=
  ⟨r.scope.moved k, r.diagnostics.map (Diagnostic.moved k), r.statement.map (Statement.moved k)⟩

def Parsed.moved (k : Nat) (p : Parsed) : Parsed :=
  ⟨p.statements.map (Statement.moved k), p.symbols.moved k, p.diagnostics.map (Diagnostic.moved k)⟩

/-! ### Likeness -/

variable {k : Nat}

theorem Span.join_moved (k : Nat) (a b : Span) :
    (a.moved k).join (b.moved k) = (a.join b).moved k := by
  have hstart : min (a.start + k) (b.start + k) = min a.start b.start + k := by omega
  have hlength : max (a.start + k + a.len) (b.start + k + b.len) - (min a.start b.start + k) =
      max (a.start + a.len) (b.start + b.len) - min a.start b.start := by omega
  simp only [join, moved, stop, hstart, hlength]

/-- Readings that differ in places only, which are `k` bytes further behind. -/
def Likeness.moved (k : Nat) : Likeness where
  place s s' := s' = s.moved k
  word := Eq
  name := Eq
  ending a b := a = b ∧ b.endsCode = true
  place_join ha hb := by rw [ha, hb, Span.join_moved]
  spelledAlike := .of_eq
  name_iff := eq_iff_of_eq
  ends := endsCode_of_eq

theorem Likeness.moved_knows (w : List Char) : (Likeness.moved k).Knows w :=
  knows_of_same id (fun _ => rfl) w

section Equal

variable {α β : Type} {R : α → β → Prop} {f : α → β}

theorem eq_map_of_forall₂ {as : List α} {bs : List β} (h : List.Forall₂ R as bs)
    (hR : ∀ a b, R a b → b = f a) : bs = as.map f := by
  induction h with
  | nil => rfl
  | cons hab _ ih => rw [hR _ _ hab, ih, List.map_cons]

theorem eq_map_of_rel {a : Option α} {b : Option β} (h : Option.Rel R a b)
    (hR : ∀ a b, R a b → b = f a) : b = a.map f := by
  cases h with
  | none => rfl
  | some hab => rw [hR _ _ hab, Option.map_some]

theorem forall₂_map (hR : ∀ a, R a (f a)) (as : List α) : List.Forall₂ R as (as.map f) := by
  induction as with
  | nil => exact .nil
  | cons a as ih => exact .cons (hR a) ih

end Equal

namespace Node

mutual

theorem eq_moved : ∀ (n : Node) {n' : Node}, n.Like (.moved k) n' → n' = n.moved k
  | .number .., _, h => by
      cases h with
      | number hplace => rw [hplace, moved]
  | .register .., _, h => by
      cases h with
      | register hplace => rw [hplace, moved]
  | .keyword .., _, h => by
      cases h with
      | keyword hplace => rw [hplace, moved]
  | .name .., _, h => by
      cases h with
      | name hname hplace =>
          have hname' := hname
          rw [hplace, moved]
          exact congrArg (fun i => Node.name i _) hname'.symm
  | .apply _ ns _, _, h => by
      cases h with
      | apply hns hplace => rw [hplace, moved, eq_movedAll ns hns]

theorem eq_movedAll : ∀ (ns : List Node) {ns' : List Node},
    List.Forall₂ (Node.Like (.moved k)) ns ns' → ns' = movedAll k ns
  | [], _, h => by
      cases h with
      | nil => rfl
  | n :: ns, _, h => by
      cases h with
      | cons hn hns => rw [movedAll, eq_moved n hn, eq_movedAll ns hns]

end

end Node

theorem nodes_eq_moved {ns ns' : List Node} (h : List.Forall₂ (Node.Like (.moved k)) ns ns') :
    ns' = ns.map (Node.moved k) :=
  eq_map_of_forall₂ h fun n _ => Node.eq_moved n

theorem Label.eq_moved {a a' : Label} (h : a.Like (.moved k) a') : a' = a.moved k := by
  obtain ⟨name, span⟩ := a
  obtain ⟨name', span'⟩ := a'
  have hname : name = name' := h.name
  have hplace : span' = span.moved k := h.place
  rw [hname, hplace]
  rfl

theorem Body.eq_moved {b b' : Body} (h : b.Like (.moved k) b') : b' = b.moved k := by
  cases h with
  | instruction hns => rw [moved, nodes_eq_moved hns]
  | constant hname hvalue => rw [moved, Label.eq_moved hname, Node.eq_moved _ hvalue]
  | origin hn => rw [moved, Node.eq_moved _ hn]
  | bytes hns => rw [moved, nodes_eq_moved hns]
  | words hns => rw [moved, nodes_eq_moved hns]
  | reserve hn => rw [moved, Node.eq_moved _ hn]

/-! ### Names -/

theorem Symbol.like_moved (s : Symbol) : s.Like (.moved k) (s.moved k) :=
  ⟨rfl, rfl, rfl, rfl, rfl⟩

theorem Symbol.eq_moved {s s' : Symbol} (h : s.Like (.moved k) s') : s' = s.moved k := by
  obtain ⟨name, kind, span, value, used⟩ := s
  obtain ⟨name', kind', span', value', used'⟩ := s'
  obtain ⟨hname, hkind, hplace, hvalue, hused⟩ := h
  dsimp only [Likeness.moved] at hname hkind hplace hvalue hused
  subst hname hkind hplace hvalue hused
  rfl

theorem Scope.like_moved (scope : Scope) : scope.Like (.moved k) (scope.moved k) :=
  ⟨forall₂_map Symbol.like_moved scope.symbols.symbols,
    List.forall₂_same.mpr fun _ _ => ⟨rfl, rfl⟩⟩

theorem Scope.eq_moved {scope scope' : Scope} (h : scope.Like (.moved k) scope') :
    scope' = scope.moved k := by
  obtain ⟨⟨symbols⟩, aliases⟩ := scope
  obtain ⟨⟨symbols'⟩, aliases'⟩ := scope'
  have hsymbols : symbols' = symbols.map (Symbol.moved k) :=
    eq_map_of_forall₂ h.symbols fun _ _ => Symbol.eq_moved
  have haliases : aliases' = aliases.map id :=
    eq_map_of_forall₂ h.aliases fun _ _ ha => (Prod.ext ha.1 ha.2).symm
  rw [hsymbols, haliases, List.map_id]
  rfl

theorem Scope.moved_empty (k : Nat) : Scope.empty.moved k = .empty := rfl

/-! ### Diagnostics -/

theorem Cause.eq_moved {c c' : Cause} (h : c.Like (.moved k) c') : c' = c.moved k := by
  cases h with
  | unexpected hkind =>
      rcases hkind with hkind | ⟨hkind, -⟩ <;> exact hkind ▸ rfl
  | duplicateSymbol hname hplace =>
      rw [hplace, moved]
      exact congrArg (fun i => duplicateSymbol i _) hname.symm
  | unknownDirective => rfl
  | registerInExpression => rfl
  | _ hword => exact hword ▸ rfl

theorem Diagnostic.eq_moved {d d' : Diagnostic} (h : d.Like (.moved k) d') : d' = d.moved k := by
  obtain ⟨cause, span⟩ := d
  obtain ⟨cause', span'⟩ := d'
  have hcause : cause' = cause.moved k := Cause.eq_moved h.cause
  have hplace : span' = span.moved k := h.place
  rw [hcause, hplace]
  rfl

/-! ### Lines -/

theorem tokensFrom_moved (k skip offset : Nat) (cs : List Char) :
    tokensFrom skip (offset + k) cs = (tokensFrom skip offset cs).map (Token.moved k) := by
  induction cs generalizing skip offset with
  | nil => rfl
  | cons c cs ih =>
      have hoffset : offset + k + c.utf8Size = offset + c.utf8Size + k := by omega
      cases skip with
      | succ skip => rw [tokensFrom, tokensFrom, hoffset, ih]
      | zero =>
          rw [tokensFrom, tokensFrom]
          dsimp only
          split
          · rw [hoffset, ih]
          · rw [hoffset, ih, List.map_cons]
            rfl

theorem linesFrom_moved (k offset : Nat) (cs : List Char) :
    linesFrom (offset + k) cs = (linesFrom offset cs).map (Line.moved k) := by
  induction cs generalizing offset with
  | nil => rfl
  | cons c cs ih =>
      have hoffset : offset + k + c.utf8Size = offset + c.utf8Size + k := by omega
      rw [linesFrom, linesFrom, hoffset, ih]
      split
      · rfl
      · cases linesFrom (offset + c.utf8Size) cs <;> rfl

namespace Line

variable (k : Nat) (l : Line)

theorem tokens_moved : (l.moved k).tokens = l.tokens.map (Token.moved k) :=
  tokensFrom_moved k 0 l.offset l.code

theorem endOffset_moved : (l.moved k).endOffset = l.endOffset + k :=
  Nat.add_right_comm l.offset k _

theorem codeEnd_moved : (l.moved k).codeEnd = l.codeEnd + k := Nat.add_right_comm l.offset k _

theorem terminator_moved : (l.moved k).terminator = l.terminator.moved k := by
  unfold terminator
  rw [endOffset_moved]
  show (if l.terminated then _ else _) = _
  split <;> rfl

theorem stop_moved : (l.moved k).stop = l.stop.moved k := by
  unfold stop
  have hcomment : (l.moved k).comment? = l.comment? := rfl
  rw [codeEnd_moved, terminator_moved, hcomment]
  cases l.comment? <;> rfl

theorem commentSpan?_moved : (l.moved k).commentSpan? = l.commentSpan?.map (Span.moved k) := by
  unfold commentSpan?
  rw [codeEnd_moved, Option.map_map]
  show l.comment?.map _ = _
  congr 1
  funext cs
  dsimp only [Function.comp_apply]
  split
  · rw [Span.moved, Nat.add_right_comm]
  · rw [Span.moved, Nat.add_right_comm l.codeEnd k 1, Nat.add_right_comm]

theorem like_moved : l.Like (.moved k) (l.moved k) := by
  refine ⟨?_, ?_⟩
  · rw [tokens_moved]
    exact forall₂_map (fun _ => ⟨rfl, rfl, rfl⟩) l.tokens
  · rw [stop_moved]
    exact ⟨⟨rfl, l.endsCode_stop⟩, rfl⟩

end Line

theorem statementOf?_moved (k : Nat) (l : Line) (label : Option Label) (body : Option Body) :
    statementOf? (l.moved k) (label.map (Label.moved k)) (body.map (Body.moved k)) =
      (statementOf? l label body).map (Statement.moved k) := by
  have hfirst : ((l.moved k).tokens.head?.getD (l.moved k).stop).span.start =
      (l.tokens.head?.getD l.stop).span.start + k := by
    rw [Line.tokens_moved, Line.stop_moved]
    cases l.tokens <;> rfl
  unfold statementOf?
  dsimp only
  rw [hfirst, Line.commentSpan?_moved, Line.endOffset_moved, Nat.add_sub_add_right]
  simp only [Option.isNone_map]
  split <;> rfl

variable {scope : Scope}

/-- **A line further behind says the same**, further behind. -/
theorem parseLine_moved (k : Nat) (scope : Scope) (l : Line) :
    parseLine (scope.moved k) (l.moved k) = (parseLine scope l).moved k := by
  have h := like_parseLine (scope.like_moved (k := k)) (l.like_moved k)
    fun t _ => Likeness.moved_knows t.chars
  have hscope := Scope.eq_moved h.scope
  have hdiagnostics := eq_map_of_forall₂ h.diagnostics fun _ _ => Diagnostic.eq_moved
  have hstatement : (parseLine (scope.moved k) (l.moved k)).statement =
      (parseLine scope l).statement.map (Statement.moved k) := by
    rcases h.statement with ⟨hnone, hnone'⟩ | ⟨a, a', b, b', ha, hb, hs, hs'⟩
    · rw [hnone, hnone']
      rfl
    · rw [hs, hs', eq_map_of_rel ha fun _ _ => Label.eq_moved,
        eq_map_of_rel hb fun _ _ => Body.eq_moved, statementOf?_moved]
  rw [LineResult.moved, ← hscope, ← hdiagnostics, ← hstatement]

theorem parseLines_moved (k : Nat) (scope : Scope) (ls : List Line) :
    parseLines (scope.moved k) (ls.map (Line.moved k)) = (parseLines scope ls).moved k := by
  induction ls generalizing scope with
  | nil => rfl
  | cons l ls ih =>
      rw [List.map_cons, parseLines, parseLines, parseLine_moved,
        show ((parseLine scope l).moved k).scope = (parseLine scope l).scope.moved k from rfl, ih]
      simp only [Parsed.moved, LineResult.moved, List.map_append]
      cases (parseLine scope l).statement <;> rfl

end Chip8.Asm
