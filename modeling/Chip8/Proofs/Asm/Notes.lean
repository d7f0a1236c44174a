import Chip8.Proofs.Asm.Agreement
import Chip8.Proofs.Asm.Reports

/-! # The notes of a program

A program comes with a warning for each instruction at an odd address, and with a note for each label
that nothing refers to, and with nothing else.

* **References.** `Node.Mentions` says that a name occurs in a tree, however deep; `unreferenced` are
  the labels of a source that occur nowhere. `unusedLabels_eq` finds the same ones in the table of
  symbols, where the second pass marks what it comes across.
* **Addresses.** `misalignments` are the instructions at odd addresses. A run of the second pass
  without an error reports these only (`Agreement.reports`).
* `notes_exact` puts both together. -/

namespace Chip8.Asm

variable {i : Identifier}

/-! ### References -/

/-- A name occurs in a tree. -/
inductive Node.Mentions (i : Identifier) : Node → Prop where
  | name (span : Span) : Mentions i (.name i span)
  | apply (op : Operator) {n : Node} {operands : List Node} (span : Span) (hn : n ∈ operands)
      (h : n.Mentions i) : Mentions i (.apply op operands span)

/-- A name occurs in an operand or expression of a statement. -/
def Statement.Mentions (i : Identifier) (s : Statement) : Prop := ∃ n ∈ s.nodes, n.Mentions i

mutual

theorem Node.mentions_of_mem : ∀ {n : Node}, i ∈ n.identifiers.map Prod.fst → n.Mentions i
  | .number _ _, h | .register _ _, h | .keyword _ _, h => by cases h
  | .name j span, h => by
      obtain rfl : i = j := by simpa [identifiers] using h
      exact .name span
  | .apply op operands span, h => by
      obtain ⟨n, hn, hi⟩ := Node.mentions_of_mem_all h
      exact .apply op span hn hi

theorem Node.mentions_of_mem_all : ∀ {ns : List Node},
    i ∈ (Node.identifiersOfAll ns).map Prod.fst → ∃ n ∈ ns, n.Mentions i
  | [], h => by cases h
  | n :: ns, h => by
      rw [identifiersOfAll, List.map_append, List.mem_append] at h
      rcases h with h | h
      · exact ⟨n, List.mem_cons_self, Node.mentions_of_mem h⟩
      · obtain ⟨m, hm, hi⟩ := Node.mentions_of_mem_all h
        exact ⟨m, List.mem_cons_of_mem n hm, hi⟩

end

/-- The list of the names in a tree has those that occur in it. -/
theorem Node.mentions_iff {n : Node} : n.Mentions i ↔ i ∈ n.identifiers.map Prod.fst := by
  refine ⟨fun h => ?_, Node.mentions_of_mem⟩
  induction h with
  | name span => simp [identifiers]
  | apply op span hn _ ih =>
      rw [identifiers, identifiersOfAll_eq_flatMap, List.map_flatMap]
      exact List.mem_flatMap.mpr ⟨_, hn, ih⟩

instance (n : Node) : Decidable (n.Mentions i) := decidable_of_iff _ Node.mentions_iff.symm

instance (s : Statement) : Decidable (s.Mentions i) :=
  inferInstanceAs (Decidable (∃ n ∈ s.nodes, n.Mentions i))

theorem Statement.mentions_iff {s : Statement} : s.Mentions i ↔ i ∈ s.references := by
  simp only [Mentions, Node.mentions_iff, references, List.mem_flatMap]

/-- The notes about the labels of statements that occur in none of them. -/
def unreferenced (ss : List Statement) : List Diagnostic :=
  ((ss.filterMap Statement.label).filter fun label => ∀ s ∈ ss, ¬ s.Mentions label.name).map
    fun label => ⟨.unusedLabel label.name, label.span⟩

/-! ### Marks -/

/-- A symbol as it was declared. -/
def Symbol.declaration (s : Symbol) : Symbol := { s with value := none }

theorem SymbolTable.declarations_define {t t' : SymbolTable} {name : Identifier} {value : Int64}
    (h : t.define name value = .ok t') :
    t'.symbols.map Symbol.declaration = t.symbols.map Symbol.declaration := by
  unfold define at h
  split at h
  · cases h
  · split at h
    · cases h
    · cases h
      rw [modify, List.map_map]
      apply List.map_congr_left
      intro s _
      simp only [Function.comp_apply]
      split <;> rfl

theorem declarations_of_statements (ss : List Statement) :
    (ss.flatMap Statement.symbols).map Symbol.declaration = ss.flatMap Statement.symbols := by
  have hkept : ∀ symbol ∈ ss.flatMap Statement.symbols, symbol.declaration = id symbol := by
    intro symbol hsymbol
    obtain ⟨s, -, hsymbol⟩ := List.mem_flatMap.mp hsymbol
    rcases List.mem_append.mp hsymbol with hlabel | hbody
    · obtain ⟨label, -, rfl⟩ := List.mem_map.mp hlabel
      rfl
    · obtain ⟨b, -, hb⟩ := List.mem_flatMap.mp hbody
      cases b with
      | constant name value =>
          rw [Body.symbols, List.mem_singleton] at hb
          subst hb
          rfl
      | _ => cases hb
  exact (List.map_congr_left hkept).trans (List.map_id _)

namespace Layout

variable (l : Layout)

theorem declarations_define (name : Label) (value : Int64) :
    (l.define name value).1.symbols.symbols.map Symbol.declaration =
      l.symbols.symbols.map Symbol.declaration := by
  unfold define
  split
  · rename_i t ht
    exact SymbolTable.declarations_define ht
  · rfl

theorem declarations_body (span : Span) (b : Body) :
    (l.body span b).1.symbols.symbols.map Symbol.declaration =
      l.symbols.symbols.map Symbol.declaration := by
  cases b with
  | constant name value =>
      show (l.constant name value).1.symbols.symbols.map Symbol.declaration = _
      unfold constant
      split
      · exact l.declarations_define name _
      · rfl
      · rfl
  | origin n => exact congrArg (fun t : SymbolTable => t.symbols.map _) (symbols_advanceBy _ _)
  | reserve n => exact congrArg (fun t : SymbolTable => t.symbols.map _) (symbols_advanceBy _ _)
  | _ => rfl

theorem declarations_statement (s : Statement) :
    (l.statement s).1.symbols.symbols.map Symbol.declaration =
      l.symbols.symbols.map Symbol.declaration := by
  unfold statement
  cases s.label with
  | none =>
      cases s.body with
      | none => rfl
      | some b => exact l.declarations_body s.span b
  | some label =>
      have hlabel := l.declarations_define label (Int64.ofNat l.place.address)
      cases s.body with
      | none => exact hlabel
      | some b => exact (declarations_body _ s.span b).trans hlabel

/-- The first pass gives names values and leaves the declarations as they are. -/
theorem declarations_statements (ss : List Statement) :
    (l.statements ss).1.symbols.symbols.map Symbol.declaration =
      l.symbols.symbols.map Symbol.declaration := by
  induction ss generalizing l with
  | nil => rfl
  | cons s ss ih => exact (ih (l.statement s).1).trans (l.declarations_statement s)

end Layout

/-! ### Labels -/

/-- The note about a symbol that nothing refers to. -/
def Symbol.note (s : Symbol) : Diagnostic := ⟨.unusedLabel s.name, s.span⟩

/-- Whether nothing refers to a label. -/
def Symbol.isUnreferenced (referenced : List Identifier) (s : Symbol) : Bool :=
  s.kind = .label && !s.used && !referenced.contains s.name

/-- Behind the marks, the unused labels are those that were declared and are not referred to. -/
theorem unusedLabels_foldl_markUsed (t : SymbolTable) (referenced : List Identifier) :
    unusedLabels (referenced.foldl SymbolTable.markUsed t) =
      ((t.symbols.map Symbol.declaration).filter
        (Symbol.isUnreferenced referenced)).map Symbol.note := by
  have hsame : ∀ s : Symbol, s.declaration.isUnreferenced referenced =
      decide (s.kind = .label ∧ ¬ (s.used || referenced.contains s.name) = true) := by
    intro s
    show (decide (s.kind = .label) && !s.used && !referenced.contains s.name) = _
    rw [Bool.eq_iff_iff]
    simp only [Bool.and_eq_true, decide_eq_true_eq, Bool.not_eq_true', Bool.or_eq_true, not_or,
      and_assoc, Bool.not_eq_true]
  unfold unusedLabels
  rw [SymbolTable.symbols_foldl_markUsed, List.filter_map, List.filter_map, List.map_map,
    List.map_map]
  have hfilter : ((fun s : Symbol => decide (s.kind = .label ∧ ¬ s.used = true)) ∘
      fun s => { s with used := s.used || referenced.contains s.name }) =
        Symbol.isUnreferenced referenced ∘ Symbol.declaration := funext fun s => (hsame s).symm
  rw [hfilter]
  rfl

/-- The symbols of statements that nothing refers to are labels of these. -/
theorem notes_of_symbols (referenced : List Identifier) (ss : List Statement) :
    ((ss.flatMap Statement.symbols).filter (Symbol.isUnreferenced referenced)).map Symbol.note =
      ((ss.filterMap Statement.label).filter fun label =>
        !referenced.contains label.name).map
          fun label => ⟨.unusedLabel label.name, label.span⟩ := by
  have hconstants : ∀ bs : List Body,
      (bs.flatMap Body.symbols).filter (Symbol.isUnreferenced referenced) = [] := by
    intro bs
    rw [List.filter_eq_nil_iff]
    intro symbol hsymbol
    obtain ⟨b, -, hb⟩ := List.mem_flatMap.mp hsymbol
    cases b with
    | constant name value =>
        rw [Body.symbols, List.mem_singleton] at hb
        subst hb
        simp [Symbol.isUnreferenced, Label.symbol]
    | _ => cases hb
  induction ss with
  | nil => rfl
  | cons s ss ih =>
      rw [List.flatMap_cons, List.filter_append, List.map_append, ih, Statement.symbols,
        List.filter_append, hconstants, List.append_nil]
      cases hlabel : s.label with
      | none => rw [List.filterMap_cons_none hlabel]; rfl
      | some label =>
          rw [List.filterMap_cons_some hlabel]
          simp only [Option.toList_some, List.map_cons, List.map_nil, List.filter_cons,
            List.filter_nil, Symbol.isUnreferenced, Label.symbol, decide_true, Bool.not_false,
            Bool.true_and]
          cases referenced.contains label.name <;> rfl

/-- **Unused labels** are the labels of the statements that occur in none of them. -/
theorem unusedLabels_eq {t : SymbolTable} {ss : List Statement}
    (h : t.symbols.map Symbol.declaration = ss.flatMap Statement.symbols) :
    unusedLabels (markReferences t ss) = unreferenced ss := by
  rw [markReferences, unusedLabels_foldl_markUsed, h, notes_of_symbols, unreferenced]
  congr 1
  apply List.filter_congr
  intro label _
  rw [Bool.eq_iff_iff]
  simp [Statement.mentions_iff]

/-! ### Addresses -/

variable {symbols : SymbolTable}

/-- Whether a statement is an instruction. -/
def Statement.isInstruction (s : Statement) : Bool :=
  match s.body with
  | some (.instruction ..) => true
  | _ => false

/-- The warning about the statement at a position: an instruction whose address is odd. -/
def misalignment? (symbols : SymbolTable) (origin : Nat) (ss : List Statement) (i : Nat) :
    Option Diagnostic := do
  let s ← ss[i]?
  let a ← addressAt? symbols origin ss i
  if s.isInstruction ∧ a % 2 = 1 then some ⟨.misaligned a, s.span⟩ else none

/-- The warnings about statements that start at an address. -/
def misalignments (symbols : SymbolTable) (origin : Nat) (ss : List Statement) : List Diagnostic :=
  (List.range ss.length).filterMap (misalignment? symbols origin ss)

theorem misalignment?_zero (a : Nat) (s : Statement) (ss : List Statement) :
    (misalignment? symbols a (s :: ss) 0).toList = s.alignment a := by
  have hodd : ∀ n : Nat, n % 2 = 1 ↔ ¬ n % 2 = 0 := by omega
  unfold misalignment? Statement.alignment Statement.isInstruction
  simp only [List.getElem?_cons_zero, addressAt?, Option.bind_eq_bind, Option.bind_some]
  split
  · simp only [hodd, true_and, alignment]
    split <;> simp_all
  · simp

theorem misalignment?_succ {a n : Nat} {s : Statement} (hsize : s.size? symbols a = some n)
    (ss : List Statement) (i : Nat) :
    misalignment? symbols a (s :: ss) (i + 1) = misalignment? symbols (a + n) ss i := by
  unfold misalignment?
  rw [List.getElem?_cons_succ, addressAt?, hsize]

theorem misalignments_cons {a n : Nat} {s : Statement} (hsize : s.size? symbols a = some n)
    (ss : List Statement) :
    misalignments symbols a (s :: ss) = s.alignment a ++ misalignments symbols (a + n) ss := by
  unfold misalignments
  rw [List.length_cons, List.range_succ_eq_map, List.filterMap_cons, List.filterMap_map,
    ← misalignment?_zero a s ss]
  have hlater : misalignment? symbols a (s :: ss) ∘ Nat.succ = misalignment? symbols (a + n) ss :=
    funext fun i => misalignment?_succ hsize ss i
  rw [hlater]
  cases misalignment? symbols a (s :: ss) 0 <;> rfl

/-- Code without an error is reported for its address at most. -/
theorem alignment_of_noErrors {a : Nat} (ha : a ≤ addressSpace) {s : Statement}
    (h : hasErrors (encodeStatement symbols ⟨a, false⟩ s).diagnostics = false) :
    (encodeStatement symbols ⟨a, false⟩ s).diagnostics = s.alignment a := by
  have hspace : addressSpace = 0x10000 := rfl
  obtain ⟨k, hk⟩ := count_of_noErrors h
  have hlt : (⟨a, false⟩ : Place).address < 0x100000000 := by
    show a < 0x100000000
    omega
  have hnone : ∀ d ∈ (encodeStatement symbols ⟨a, false⟩ s).diagnostics, d.isError = false := by
    simpa [hasErrors] using h
  have hreports := (reports_encodeStatement hlt hk).reports
  have hkept : (encodeStatement symbols ⟨a, false⟩ s).diagnostics.filter (·.cause ≠ .overflow) =
      (encodeStatement symbols ⟨a, false⟩ s).diagnostics := by
    rw [List.filter_eq_self]
    intro d hd
    refine decide_eq_true fun hcause => ?_
    have herror : d.isError = true := by
      rw [Diagnostic.isError, Diagnostic.severity, hcause]
      rfl
    rw [hnone d hd] at herror
    cases herror
  rw [hkept] at hreports
  have hbad : s.badOperands symbols = [] := by
    rw [List.eq_nil_iff_forall_not_mem]
    intro d hd
    have herror := (isError_of_mem_badOperands hd).1
    rw [hnone d (hreports ▸ List.mem_append_right _ hd)] at herror
    cases herror
  rw [hreports, hbad, List.append_nil]

/-- **A run of the second pass without an error** reports the instructions at odd addresses. -/
theorem Agreement.reports {a : Nat} {ss : List Statement} {bytes : List UInt8}
    (h : Agreement symbols a ss bytes) :
    (encodeStatements symbols ⟨a, false⟩ ss).diagnostics = misalignments symbols a ss := by
  induction h with
  | nil _ => rfl
  | @cons a s ss code bytes placed rest ih =>
      have ha : a ≤ addressSpace := by
        have hfits := (Agreement.cons placed rest).fits
        omega
      obtain ⟨n, hsize, htakes⟩ := size_of_encodeStatement ha placed.noErrors
      obtain rfl : n = code.length := Option.some.inj (hsize.symm.trans placed.size)
      rw [encodeStatements, Output.andThen, htakes.place, ih, misalignments_cons hsize,
        alignment_of_noErrors ha placed.noErrors]

/-! ### Programs -/

/-- **Notes are exact**: a program comes with a warning for each instruction at an odd address, in the
order of the statements, and then with a note for each label that occurs in no operand or expression
of a statement, in the order of the declarations; there is nothing else. -/
theorem notes_exact {source : String} {origin : UInt16} {p : Program}
    (h : assemble source origin = .ok p) :
    p.notes = misalignments p.symbols origin.toNat (parse source).statements ++
      unreferenced (parse source).statements := by
  have hp := agreement_of_assemble h
  obtain ⟨hparsed, hlayout, -, rfl⟩ := assembleParsed_eq_ok.mp h
  have hparse := eq_nil_of_noErrors (fun _ => isError_of_mem_parse) hparsed
  have hfirst := eq_nil_of_noErrors (Layout.isError_statements _) hlayout
  have hdeclared : (Layout.statements ⟨.ofOrigin origin, (parse source).symbols⟩
      (parse source).statements).1.symbols.symbols.map Symbol.declaration =
        (parse source).statements.flatMap Statement.symbols := by
    rw [Layout.declarations_statements, symbols_parse hparsed]
    exact declarations_of_statements _
  dsimp only
  rw [unusedLabels_eq hdeclared, ← hp.agreement.reports, hparse, hfirst, List.nil_append,
    List.nil_append, encodeStatements_congr (lookup_markReferences _ _)]
  rfl

/-- An instruction behind a single byte, a label that only a constant refers to, one that only an
alias shares its name with, and one that nothing refers to. -/
def straySource : String :=
  "data: .byte 1\nnext: cls\n.equ n, next + 2\n.alias far, v0\nfar: jp far, n\n"

theorem notes_exact_straySource :
    ∃ p, assemble straySource 0x200 = .ok p ∧
      p.notes = misalignments p.symbols 0x200 (parse straySource).statements ++
        unreferenced (parse straySource).statements ∧
      p.notes = [⟨.misaligned 0x201, ⟨14, 9⟩⟩, ⟨.misaligned 0x203, ⟨56, 14⟩⟩,
        ⟨.unusedLabel ⟨"data".toList, rfl⟩, ⟨0, 4⟩⟩,
        ⟨.unusedLabel ⟨"far".toList, rfl⟩, ⟨56, 3⟩⟩] := by
  cases h : assemble straySource 0x200 with
  | ok p =>
      refine ⟨p, rfl, notes_exact h, ?_⟩
      have hnotes : (assemble straySource 0x200).toOption.map Program.notes =
          some [⟨.misaligned 0x201, ⟨14, 9⟩⟩, ⟨.misaligned 0x203, ⟨56, 14⟩⟩,
            ⟨.unusedLabel ⟨"data".toList, rfl⟩, ⟨0, 4⟩⟩,
            ⟨.unusedLabel ⟨"far".toList, rfl⟩, ⟨56, 3⟩⟩] := by decide +kernel
      rw [h] at hnotes
      exact Option.some.inj hnotes
  | error ds =>
      have hok : (assemble straySource 0x200).toBool = true := by decide +kernel
      rw [h] at hok
      cases hok

end Chip8.Asm
