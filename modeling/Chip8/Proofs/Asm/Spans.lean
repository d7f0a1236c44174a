import Chip8.Proofs.Asm.BadOperands
import Chip8.Proofs.Asm.LineSpans
import Chip8.Proofs.Asm.Notes

/-! # Spans

Every span that is reported about a source is a place of it.

* **Values.** The evaluation of a tree fails at a part of it (`Node.Framed.evaluate`).
* **Passes.** What the two passes report is at the places of statements, of their labels and
  constants and of the parts of their trees. There is one lemma for each function that reports, up
  to `Layout.at_statements` and `at_encodeStatements`.
* **Symbols** keep the places of their declarations.
* `spans_are_places` puts these together. -/

namespace Chip8.Asm

variable {s : Statement} {P : Span → Prop}

/-! ### Values -/

section Values

variable {T : SymbolTable} {n : Node} {e : EvalError}

theorem span_of_apply {op : Operator} {span : Span} {vs : List Value}
    (h : op.apply span vs = .error e) : e.span = span := by
  rcases op.error_of_apply span h with rfl | ⟨b, rfl⟩ | rfl <;> rfl

theorem exists_error_of_evaluateAll {ns : List Node} (h : Node.evaluateAll T ns = .error e) :
    ∃ n ∈ ns, n.evaluate T = .error e := by
  induction ns with
  | nil => cases h
  | cons n ns ih =>
      rw [Node.evaluateAll] at h
      split at h
      · rename_i e' he
        cases h
        exact ⟨n, List.mem_cons_self, he⟩
      · split at h
        · rename_i e' he
          cases h
          obtain ⟨k, hk, hfails⟩ := ih he
          exact ⟨k, List.mem_cons_of_mem n hk, hfails⟩
        · cases h

/-- The evaluation of a tree fails at a part of it. -/
theorem Node.Framed.evaluate (h : n.Framed P) (he : n.evaluate T = .error e) : P e.span := by
  induction h with
  | number => cases he
  | register hs =>
      cases he
      exact hs
  | keyword hs =>
      cases he
      exact hs
  | name hs =>
      rw [Node.evaluate] at he
      split at he
      · cases he
      · cases he
      · cases he
        exact hs
  | apply hs _ _ ih =>
      rw [Node.evaluate] at he
      split at he
      · split at he
        · rw [span_of_apply he]
          exact hs
        · rename_i e' hall
          cases he
          obtain ⟨k, hk, hfails⟩ := exists_error_of_evaluateAll hall
          exact ih k hk hfails
      · cases he
        exact hs

theorem Node.Framed.identifiers (h : n.Framed P) : ∀ x ∈ n.identifiers, P x.2 := by
  induction h with
  | number => nofun
  | register => nofun
  | keyword => nofun
  | name hs =>
      intro x hx
      rw [List.mem_singleton.mp hx]
      exact hs
  | apply _ _ _ ih =>
      rw [Node.identifiers, Node.identifiersOfAll_eq_flatMap]
      intro x hx
      obtain ⟨k, hk, hx⟩ := List.mem_flatMap.mp hx
      exact ih k hk x hx

theorem Node.Framed.firstUndefined (h : n.Framed P) : P (n.firstUndefined T).span := by
  unfold Node.firstUndefined
  split
  · rename_i i s hfound
    exact h.identifiers _ (List.mem_of_find?_eq_some hfound)
  · exact h.place

theorem Node.Framed.numberIn (h : n.Framed P) (he : n.numberIn T = .error e) : P e.span := by
  unfold Node.numberIn at he
  split at he
  · cases he
  · cases he
    exact h.place
  · cases he
    exact h.firstUndefined
  · rename_i e' hfails
    cases he
    exact h.evaluate hfails

theorem Node.Framed.tryNumberIn (h : n.Framed P) (he : n.tryNumberIn T = .error e) : P e.span := by
  unfold Node.tryNumberIn at he
  split at he
  · cases he
  · cases he
    exact h.place
  · cases he
  · rename_i e' hfails
    cases he
    exact h.evaluate hfails

end Values

/-! ### Reports of the passes -/

/-- A cause that mentions no place. -/
theorem Diagnostic.At.plain {cause : Cause} (hcause : cause.place? = none) {span : Span}
    (h : P span) : Diagnostic.At P ⟨cause, span⟩ := by
  refine ⟨h, ?_⟩
  intro place hplace
  rw [hcause] at hplace
  cases hplace

theorem Diagnostic.At.ofEvaluation {e : EvalError} (h : P e.span) :
    (Diagnostic.ofEvaluation e).At P := by
  refine ⟨h, ?_⟩
  intro place hplace
  cases hplace
  exact h

section Passes

variable {T : SymbolTable} {n : Node} {span : Span} {p : Place}

theorem at_immediate (h : n.Framed P) (bits : Nat) :
    FailsWith (Diagnostic.At P) (immediate T bits n) := by
  unfold immediate
  split
  · rename_i e he
    exact .error (.ofEvaluation (h.numberIn he))
  · split
    · exact .ok _
    · exact .error (.plain rfl h.place)

theorem at_gap (h : n.Framed P) (address : Nat) :
    FailsWith (Diagnostic.At P) (gap T address n) := by
  unfold gap
  split
  · rename_i e he
    exact .error (.ofEvaluation (h.numberIn he))
  · split
    · exact .error (.plain rfl h.place)
    · exact .ok _

theorem at_reservation (h : n.Framed P) : FailsWith (Diagnostic.At P) (reservation T n) := by
  unfold reservation
  split
  · rename_i e he
    exact .error (.ofEvaluation (h.numberIn he))
  · split
    · exact .ok _
    · exact .error (.plain rfl h.place)

theorem at_orReport {α : Type} {x : Except Diagnostic α} (h : FailsWith (Diagnostic.At P) x)
    (default : α) : ∀ d ∈ (orReport default x).2, d.At P := by
  cases x with
  | ok a => exact List.forall_mem_nil _
  | error d => exact List.forall_mem_singleton.mpr (h d rfl)

theorem at_placeAdvance (h : P span) (p : Place) (k : Nat) :
    ∀ d ∈ (p.advance k span).2, d.At P := by
  unfold Place.advance
  dsimp only
  split
  · exact List.forall_mem_singleton.mpr (.plain rfl h)
  · exact List.forall_mem_nil _

namespace Layout

variable (l : Layout)

theorem at_define {name : Label} (h : P name.span) (value : Int64) :
    ∀ d ∈ (l.define name value).2, d.At P := by
  unfold define
  split
  · exact List.forall_mem_nil _
  · rename_i e he
    have hplain : (Cause.symbol e).place? = none := by
      unfold SymbolTable.define at he
      split at he
      · cases he
        rfl
      · split at he
        · cases he
          rfl
        · cases he
    exact List.forall_mem_singleton.mpr (.plain hplain h)

theorem at_advanceBy {count : Except Diagnostic Nat} (hcount : FailsWith (Diagnostic.At P) count)
    (h : P span) : ∀ d ∈ (l.advanceBy count span).2, d.At P := by
  unfold advanceBy
  cases count with
  | ok k => exact at_placeAdvance h l.place k
  | error d => exact List.forall_mem_singleton.mpr (hcount d rfl)

theorem at_constant {name : Label} (hname : P name.span) (h : n.Framed P) :
    ∀ d ∈ (l.constant name n).2, d.At P := by
  unfold constant
  split
  · exact l.at_define hname _
  · exact List.forall_mem_singleton.mpr (.plain rfl h.place)
  · rename_i e he
    exact List.forall_mem_singleton.mpr (.ofEvaluation (h.tryNumberIn he))

theorem at_body {b : Body} (h : P span) (hnodes : ∀ n ∈ b.nodes, n.Framed P)
    (hconstant : ∀ name value, b = .constant name value → P name.span) :
    ∀ d ∈ (l.body span b).2, d.At P := by
  cases b with
  | constant name value =>
      exact l.at_constant (hconstant name value rfl) (hnodes value List.mem_cons_self)
  | origin n =>
      have hn := hnodes n List.mem_cons_self
      exact l.at_advanceBy (at_gap hn _) hn.place
  | reserve n =>
      have hn := hnodes n List.mem_cons_self
      exact l.at_advanceBy (at_reservation hn) h
  | instruction => exact at_placeAdvance h l.place _
  | bytes => exact at_placeAdvance h l.place _
  | words => exact at_placeAdvance h l.place _

theorem at_statement (h : s.Framed P) (hspan : P s.span) : ∀ d ∈ (l.statement s).2, d.At P := by
  obtain ⟨label, body, comment, span⟩ := s
  obtain ⟨hlabel, hconstant, hnodes⟩ := h
  unfold statement
  refine List.forall_mem_append.mpr ⟨?_, ?_⟩
  · cases label with
    | none => exact List.forall_mem_nil _
    | some a => exact l.at_define (hlabel a rfl) _
  · cases body with
    | none => exact List.forall_mem_nil _
    | some b =>
        exact at_body _ hspan hnodes fun name value hb => hconstant name value (congrArg some hb)

/-- **The first pass** reports at places of the statements. -/
theorem at_statements {ss : List Statement} (hss : ∀ s ∈ ss, s.Framed P ∧ P s.span) :
    ∀ d ∈ (l.statements ss).2, d.At P := by
  induction ss generalizing l with
  | nil => exact List.forall_mem_nil _
  | cons s ss ih =>
      obtain ⟨⟨hs, hspan⟩, hss⟩ := List.forall_mem_cons.mp hss
      exact List.forall_mem_append.mpr ⟨l.at_statement hs hspan, ih _ hss⟩

end Layout

theorem at_ofBytes (h : P span) (p : Place) (bytes : List UInt8) :
    ∀ d ∈ (Output.ofBytes p bytes span).diagnostics, d.At P :=
  at_placeAdvance h p bytes.length

theorem at_slotValues {ns : List Node} (hns : ∀ n ∈ ns, n.Framed P) (shapes : List Shape) :
    ∀ d ∈ (slotValues T shapes ns).2, d.At P := by
  induction ns generalizing shapes with
  | nil => cases shapes <;> exact List.forall_mem_nil _
  | cons n ns ih =>
      cases shapes with
      | nil => exact List.forall_mem_nil _
      | cons shape shapes =>
          obtain ⟨hn, hns⟩ := List.forall_mem_cons.mp hns
          have hslot : FailsWith (Diagnostic.At P) (slotValue T shape n) := by
            unfold slotValue
            split
            · exact at_immediate hn _
            · split <;> exact .ok _
          exact List.forall_mem_append.mpr ⟨at_orReport hslot 0, ih hns shapes⟩

theorem at_encodeValues {ns : List Node} (hns : ∀ n ∈ ns, n.Framed P) (h : P span) (bits : Nat)
    (toBytes : UInt16 → List UInt8) (p : Place) :
    ∀ d ∈ (encodeValues T bits toBytes span p ns).diagnostics, d.At P := by
  induction ns generalizing p with
  | nil => exact List.forall_mem_nil _
  | cons n ns ih =>
      obtain ⟨hn, hns⟩ := List.forall_mem_cons.mp hns
      rw [encodeValues]
      refine List.forall_mem_append.mpr ⟨List.forall_mem_append.mpr ⟨?_, ?_⟩, ih hns _⟩
      · exact at_orReport (at_immediate hn bits) 0
      · exact at_ofBytes h p _

theorem at_encodeZeros {count : Except Diagnostic Nat} (hcount : FailsWith (Diagnostic.At P) count)
    (h : P span) (p : Place) : ∀ d ∈ (encodeZeros p count span).diagnostics, d.At P := by
  cases count with
  | ok k => exact at_ofBytes h p _
  | error d => exact List.forall_mem_singleton.mpr (hcount d rfl)

theorem at_alignment (h : P span) (address : Nat) : ∀ d ∈ alignment address span, d.At P := by
  unfold alignment
  split
  · exact List.forall_mem_nil _
  · exact List.forall_mem_singleton.mpr (.plain rfl h)

theorem at_encodeBody {b : Body} (h : P span) (hnodes : ∀ n ∈ b.nodes, n.Framed P) (p : Place) :
    ∀ d ∈ (encodeBody T span p b).diagnostics, d.At P := by
  cases b with
  | constant => exact List.forall_mem_nil _
  | instruction form ns =>
      refine List.forall_mem_append.mpr ⟨List.forall_mem_append.mpr ⟨?_, ?_⟩, at_ofBytes h p _⟩
      · exact at_alignment h _
      · exact at_slotValues hnodes _
  | origin n =>
      have hn := hnodes n List.mem_cons_self
      exact at_encodeZeros (at_gap hn _) hn.place p
  | reserve n =>
      have hn := hnodes n List.mem_cons_self
      exact at_encodeZeros (at_reservation hn) h p
  | bytes ns => exact at_encodeValues hnodes h 8 _ p
  | words ns => exact at_encodeValues hnodes h 16 _ p

/-- **The second pass** reports at places of the statements. -/
theorem at_encodeStatements {ss : List Statement} (hss : ∀ s ∈ ss, s.Framed P ∧ P s.span)
    (p : Place) : ∀ d ∈ (encodeStatements T p ss).diagnostics, d.At P := by
  induction ss generalizing p with
  | nil => exact List.forall_mem_nil _
  | cons s ss ih =>
      obtain ⟨⟨hs, hspan⟩, hss⟩ := List.forall_mem_cons.mp hss
      refine List.forall_mem_append.mpr ⟨?_, ih hss _⟩
      have hnodes := hs.nodes
      unfold Statement.nodes at hnodes
      unfold encodeStatement
      cases hbody : s.body with
      | none => exact List.forall_mem_nil _
      | some b =>
          rw [hbody] at hnodes
          exact at_encodeBody hspan hnodes p

/-! ### Symbols -/

/-- The passes leave the places of symbols as they are. -/
theorem placed_statements (l : Layout) (hsymbols : ∀ symbol ∈ l.symbols.symbols, P symbol.span)
    (ss : List Statement) : ∀ symbol ∈ (l.statements ss).1.symbols.symbols, P symbol.span := by
  intro symbol hsymbol
  have hmem := List.mem_map_of_mem (f := Symbol.declaration) hsymbol
  rw [l.declarations_statements ss] at hmem
  obtain ⟨declared, hdeclared, heq⟩ := List.mem_map.mp hmem
  have hspan := congrArg Symbol.span heq
  rw [show symbol.span = declared.span from hspan.symm]
  exact hsymbols declared hdeclared

theorem placed_markReferences (hsymbols : ∀ symbol ∈ T.symbols, P symbol.span)
    (ss : List Statement) : ∀ symbol ∈ (markReferences T ss).symbols, P symbol.span := by
  rw [markReferences, SymbolTable.symbols_foldl_markUsed]
  intro symbol hsymbol
  obtain ⟨declared, hdeclared, rfl⟩ := List.mem_map.mp hsymbol
  exact hsymbols declared hdeclared

theorem at_unusedLabels (hsymbols : ∀ symbol ∈ T.symbols, P symbol.span) :
    ∀ d ∈ unusedLabels T, d.At P := by
  intro d hd
  obtain ⟨symbol, hsymbol, rfl⟩ := List.mem_map.mp hd
  exact .plain rfl (hsymbols symbol (List.mem_filter.mp hsymbol).1)

end Passes

/-! ### Sources -/

/-- What is said about a source has its spans among places of a kind. -/
structure Parsed.At (P : Span → Prop) (parsed : Parsed) : Prop where
  statements : ∀ s ∈ parsed.statements, s.Framed P ∧ P s.span
  symbols : ∀ symbol ∈ parsed.symbols.symbols, P symbol.span
  diagnostics : ∀ d ∈ parsed.diagnostics, d.At P

/-- **What assembling reports** is at places of the kind that reading reports. -/
theorem at_assembleParsed {parsed : Parsed} (h : parsed.At P) (origin : UInt16) :
    (∀ d ∈ reported (assembleParsed parsed origin), d.At P) ∧
      ∀ program, assembleParsed parsed origin = .ok program →
        ∀ symbol ∈ program.symbols.symbols, P symbol.span := by
  have hfirst := Layout.at_statements ⟨.ofOrigin origin, parsed.symbols⟩ h.statements
  have hsymbols := placed_statements ⟨.ofOrigin origin, parsed.symbols⟩ h.symbols parsed.statements
  unfold assembleParsed
  dsimp only
  generalize Layout.statements ⟨.ofOrigin origin, parsed.symbols⟩ parsed.statements = laid
    at hfirst hsymbols ⊢
  have hmarked := placed_markReferences hsymbols parsed.statements
  have hsecond := at_encodeStatements (T := laid.1.symbols) h.statements (.ofOrigin origin)
  have hfound := List.forall_mem_append.mpr ⟨h.diagnostics, hfirst⟩
  have hcode := List.forall_mem_append.mpr ⟨hfound, hsecond⟩
  have hall := List.forall_mem_append.mpr ⟨hcode, at_unusedLabels hmarked⟩
  split
  · exact ⟨h.diagnostics, nofun⟩
  · split
    · exact ⟨hfound, nofun⟩
    · split
      · exact ⟨hall, nofun⟩
      · refine ⟨hall, ?_⟩
        intro program hprogram
        cases hprogram
        exact hmarked

/-- A statement is a place of the source around those of its label, its constant and its trees. What
is said of its comment is read off the source. -/
structure Statement.InSource (source : List Char) (s : Statement) : Prop where
  span : IsPlace source s.span
  framed : s.Framed fun place => IsPlace source place ∧ place.Within s.span
  comment : ∀ place ∈ s.comment, IsPlace source place ∧
    ∃ before code left text right rest,
      CommentAt source s.span place before code left text right rest

theorem Node.Framed.imp {Q : Span → Prop} {n : Node} (h : n.Framed P) (hPQ : ∀ s, P s → Q s) :
    n.Framed Q := by
  induction h with
  | number hs => exact .number (hPQ _ hs)
  | register hs => exact .register (hPQ _ hs)
  | keyword hs => exact .keyword (hPQ _ hs)
  | name hs => exact .name (hPQ _ hs)
  | apply hs _ haround ih => exact .apply (hPQ _ hs) ih haround

theorem Statement.Framed.imp {Q : Span → Prop} (h : s.Framed P) (hPQ : ∀ s, P s → Q s) :
    s.Framed Q where
  label a ha := hPQ _ (h.label a ha)
  constant name value hbody := hPQ _ (h.constant name value hbody)
  nodes n hn := (h.nodes n hn).imp hPQ

/-- **The statements of a source** are in it. -/
theorem inSource_parse {source : String} (hsize : byteLength source.toList < 0x100000000)
    (hs : s ∈ (parse source).statements) : s.InSource source.toList := by
  obtain ⟨before, l, after, hlines, hstatement⟩ := line_of_mem_parseLines hs
  have hl : l ∈ lines source := hlines ▸ List.mem_append_right _ List.mem_cons_self
  obtain ⟨rest, h⟩ := standsIn_of_mem_lines hl
  obtain ⟨hspan, hcomment, hframed⟩ :=
    framed_parseLine (joins_isPlace hsize l.whole) h.inOrder_whole hstatement
  constructor
  · rw [hspan]
    exact h.isPlace_whole
  · rw [hspan]
    exact hframed
  · intro place hplace
    rw [hcomment] at hplace
    obtain ⟨before, code, left, text, right, hat⟩ := exists_comment h hplace
    rw [hspan]
    exact ⟨hat.isPlace.1, before, code, left, text, right, rest, hat⟩

theorem at_parse {source : String} (hsize : byteLength source.toList < 0x100000000) :
    (parse source).At (IsPlace source.toList) := by
  obtain ⟨hdiagnostics, hsymbols⟩ := placed_parse hsize
  refine ⟨?_, hsymbols, hdiagnostics⟩
  intro s hs
  have h := inSource_parse hsize hs
  exact ⟨h.framed.imp fun _ hplace => hplace.1, h.span⟩

/-- **Every reported span is a real place.** For a source of less than four gigabytes and every
origin, what reading and assembling report, and the symbols, statements and trees that they give,
have their spans among the places of the source: parts of it that start and stop between two
characters. A statement is around its label and its trees, an operator around its operands, and a
comment is what remains between its mark and the end of the line without the blanks around it.
Slicing the source gives a text at such spans and at no others, and at that of a token its
characters. Reading token by token gives the same spans. -/
theorem spans_are_places (source : String) (hsize : byteLength source.toList < 0x100000000)
    (origin : UInt16) :
    Reader.parse source = some (parse source) ∧
      (parse source).At (IsPlace source.toList) ∧
      (∀ s ∈ (parse source).statements, s.InSource source.toList) ∧
      (∀ d ∈ reported (assemble source origin), d.At (IsPlace source.toList)) ∧
      (∀ program, assemble source origin = .ok program →
        ∀ symbol ∈ program.symbols.symbols, IsPlace source.toList symbol.span) ∧
      (∀ place, IsPlace source.toList place ↔ slice? source.toList place =
        some ((Cursor.ofText source).slice place.start place.stop)) ∧
      ∀ t ∈ tokenize source, slice? source.toList t.span = some t.chars := by
  have hparse := at_parse hsize
  obtain ⟨hreported, hsymbols⟩ := at_assembleParsed hparse origin
  refine ⟨Reader.parse_eq source, hparse, ?_, hreported, hsymbols, ?_, ?_⟩
  · intro s hs
    exact inSource_parse hsize hs
  · intro place
    exact isPlace_iff_slice
  · intro t ht
    obtain ⟨front, back, hplace⟩ := (tilesSource_tokensFrom source.toList).place t ht
    exact slice?_eq_some.mpr ⟨front, back, hplace⟩

/-- Letters of two and three bytes, parentheses around an operator, and comments with blanks around
them or of blanks only. -/
def paddedSource : String :=
  "é: \n.equ b, -(1 + 2) ;  größe ≠ 3\t\n  a: .byte ( b ) << 1; \r\n"

theorem spans_are_places_padded :
    byteLength paddedSource.toList < 0x100000000 ∧
      (∀ s ∈ (parse paddedSource).statements, s.InSource paddedSource.toList) ∧
      (∀ d ∈ reported (assemble paddedSource 0x200), d.At (IsPlace paddedSource.toList)) ∧
      (parse paddedSource).diagnostics.map Diagnostic.span = [⟨0, 2⟩] ∧
      (parse paddedSource).statements.map (fun s => (s.span, s.comment)) =
        [(⟨5, 34⟩, some ⟨25, 13⟩), (⟨42, 22⟩, some ⟨62, 0⟩)] ∧
      slice? paddedSource.toList ⟨25, 13⟩ = some "größe ≠ 3".toList ∧
      slice? paddedSource.toList ⟨62, 0⟩ = some [] ∧ slice? paddedSource.toList ⟨1, 1⟩ = none := by
  have hsize : byteLength paddedSource.toList < 0x100000000 := by decide +kernel
  obtain ⟨-, -, hstatements, hreported, -⟩ := spans_are_places paddedSource hsize 0x200
  refine ⟨hsize, hstatements, hreported, ?_⟩
  decide +kernel

end Chip8.Asm
