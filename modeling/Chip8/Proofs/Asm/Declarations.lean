import Chip8.Proofs.Asm.Operands
import Chip8.Proofs.Asm.SymbolTable

/-! # Declarations

What holds of the statements and of the symbol table of a source whose lines have no error.

* `Scope.Sound` is kept by every line that has no error (`line_of_noErrors`); what a line adds to
  the symbols is what its statement declares (`symbols_parse`).
* `names_parse`: the table lists the names that the statements declare, in the order of the
  declarations, and each of them once.
* `wellFormed_of_parse`: the instructions of the statements have their forms from the table. -/

namespace Chip8.Asm

/-- The names that a body declares. -/
def Body.declared : Body → List Identifier
  | .constant name _ => [name.name]
  | _ => []

/-- The names that a statement declares, in their order. -/
def Statement.declared (s : Statement) : List Identifier :=
  s.label.toList.map Label.name ++ s.body.toList.flatMap Body.declared

/-- The symbol of a name that is declared and has no value yet. -/
def Label.symbol (label : Label) (kind : SymbolKind) : Symbol :=
  ⟨label.name, kind, label.span, none, false⟩

/-- The symbols that a body declares. -/
def Body.symbols : Body → List Symbol
  | .constant name _ => [name.symbol .constant]
  | _ => []

/-- The symbols that a statement declares, in their order. -/
def Statement.symbols (s : Statement) : List Symbol :=
  s.label.toList.map (·.symbol .label) ++ s.body.toList.flatMap Body.symbols

theorem Body.map_name_symbols (b : Body) : b.symbols.map Symbol.name = b.declared := by
  cases b <;> rfl

theorem Statement.map_name_symbols (s : Statement) : s.symbols.map Symbol.name = s.declared := by
  unfold symbols declared
  simp only [List.map_append, List.map_flatMap, List.map_map, Body.map_name_symbols]
  rfl

/-- The instruction of a body, if it is one, has its form from the table. -/
def Body.WellFormed : Body → Prop
  | .instruction form operands => Selected form operands
  | _ => True

/-- No name is declared twice, and aliases stand for registers that exist. -/
structure Scope.Sound (scope : Scope) : Prop where
  nodup : scope.symbols.names.Nodup
  aliases : scope.aliases.Exist

/-- `scope'` is `scope` and the declarations of `added`. -/
structure Scope.Grows (scope scope' : Scope) (added : List Symbol) : Prop where
  sound : scope'.Sound
  symbols : scope'.symbols.symbols = scope.symbols.symbols ++ added

theorem Scope.sound_empty : Scope.empty.Sound :=
  ⟨List.nodup_nil, fun i r h => by cases h⟩

theorem Scope.Grows.refl {scope : Scope} (h : scope.Sound) : scope.Grows scope [] :=
  ⟨h, (List.append_nil _).symm⟩

theorem Scope.Grows.trans {s₁ s₂ s₃ : Scope} {as bs : List Symbol} (h₁ : s₁.Grows s₂ as)
    (h₂ : s₂.Grows s₃ bs) : s₁.Grows s₃ (as ++ bs) :=
  ⟨h₂.sound, by rw [h₂.symbols, h₁.symbols, List.append_assoc]⟩

/-! ### Declaring names -/

theorem Scope.grows_declare {scope scope' : Scope} (hscope : scope.Sound) {kind : SymbolKind}
    {label : Label} (h : scope.declare kind label = .ok scope') :
    scope.Grows scope' [label.symbol kind] := by
  unfold declare at h
  split at h
  · rename_i symbols hsymbols
    cases h
    obtain ⟨hnew, hnames⟩ := SymbolTable.names_declare hsymbols
    refine ⟨⟨?_, hscope.aliases⟩, (SymbolTable.symbols_declare hsymbols).2⟩
    show symbols.names.Nodup
    rw [hnames]
    refine List.nodup_append.mpr ⟨hscope.nodup, by simp, fun a ha b hb => ?_⟩
    rw [List.mem_singleton] at hb
    exact fun e => hnew (hb ▸ e ▸ ha)
  · cases h
  · cases h

theorem isError_of_declare {scope : Scope} {kind : SymbolKind} {label : Label} {d : Diagnostic}
    (h : scope.declare kind label = .error d) : d.isError = true :=
  refuses_declare scope kind label d h

theorem grows_declareLabel {scope scope' : Scope} (hscope : scope.Sound) {t : Token}
    {reports : List Diagnostic} {label : Option Label}
    (h : declareLabel scope t = .ok (scope', reports, label)) (hok : hasErrors reports = false) :
    reports = [] ∧ scope.Grows scope' (label.toList.map (·.symbol .label)) := by
  unfold declareLabel at h
  split at h
  · cases h
  · obtain ⟨name, _, h⟩ := bind_eq_ok h
    split at h
    · rename_i s hs
      cases h
      exact ⟨rfl, Scope.grows_declare hscope hs⟩
    · rename_i d hd
      cases h
      have herror := isError_of_declare hd
      simp [hasErrors, herror] at hok

theorem grows_readConstant {scope scope' : Scope} (hscope : scope.Sound) {stop : Token}
    {ts : List Token} {b : Body} {rest : Option Token}
    (h : readConstant scope stop ts = .ok (scope', b, rest)) :
    scope.Grows scope' b.symbols ∧ b.WellFormed := by
  obtain ⟨t, ts₁, i, comma, ts₂, n, rfl, -, -, -, -, hdeclare⟩ := readConstant_eq_ok.mp h
  exact ⟨Scope.grows_declare hscope hdeclare, trivial⟩

theorem exists_head {stop : Token} (hstop : stop.Exists) {ts : List Token}
    (hts : ∀ t ∈ ts, t.Exists) : (ts.head?.getD stop).Exists := by
  cases ts with
  | nil => exact hstop
  | cons t ts => exact hts t List.mem_cons_self

theorem exist_cons {aliases : Aliases} (haliases : aliases.Exist) (name : Identifier) {r : UInt8}
    (hr : r.toNat < 16) : Aliases.Exist ((name, r) :: aliases) := by
  intro i k hk
  unfold Aliases.get? at hk
  rw [List.find?_cons] at hk
  split at hk
  · cases hk
    exact hr
  · exact haliases i k hk

theorem grows_readAlias {scope scope' : Scope} (hscope : scope.Sound) {stop : Token}
    (hstop : stop.Exists) {ts : List Token} (hts : ∀ t ∈ ts, t.Exists) {rest : Option Token}
    (h : readAlias scope stop ts = .ok (scope', rest)) : scope.Grows scope' [] := by
  obtain ⟨t, ts₁, i, comma, ts₂, r, rfl, ht, -, -, hcomma, hr, -⟩ := readAlias_eq_ok h
  have hmem : ∀ u ∈ ts₂, u.Exists := by
    intro u hu
    rw [(expect_eq_ok hcomma).2.2, (expect_eq_ok ht).2.2] at hu
    exact hts u (List.mem_of_mem_tail (List.mem_of_mem_tail hu))
  exact ⟨⟨hscope.nodup, exist_cons hscope.aliases i (exists_head hstop hmem r hr)⟩,
    (List.append_nil _).symm⟩

/-! ### Bodies -/

/-- A body that is read declares what it adds to the scope, and its instruction is well formed. -/
def BodyRead (scope scope' : Scope) (b : Option Body) : Prop :=
  scope.Grows scope' (b.toList.flatMap Body.symbols) ∧ ∀ c, b = some c → c.WellFormed

theorem bodyRead_of_silent {scope : Scope} (hscope : scope.Sound) {b : Body}
    (hsilent : b.symbols = []) (hformed : b.WellFormed) : BodyRead scope scope (some b) := by
  refine ⟨?_, fun c hc => Option.some.inj hc ▸ hformed⟩
  simp only [Option.toList_some, List.flatMap_cons, List.flatMap_nil, hsilent]
  exact .refl hscope

theorem bodyRead_readDirective {scope scope' : Scope} (hscope : scope.Sound) {stop name : Token}
    (hstop : stop.Exists) {ts : List Token} (hts : ∀ t ∈ ts, t.Exists) {b : Option Body}
    {rest : Option Token} (h : readDirective scope stop name ts = .ok (scope', b, rest)) :
    BodyRead scope scope' b := by
  cases readDirective_eq_ok.mp h with
  | constant _ hread =>
      obtain ⟨hgrows, hformed⟩ := grows_readConstant hscope hread
      refine ⟨?_, fun d hd => Option.some.inj hd ▸ hformed⟩
      simpa using hgrows
  | registerAlias _ hread =>
      exact ⟨grows_readAlias hscope hstop hts hread, fun d hd => by cases hd⟩
  | only hname _ =>
      rcases hname with ⟨-, rfl⟩ | ⟨-, rfl⟩ <;> exact bodyRead_of_silent hscope rfl trivial
  | all hname _ =>
      rcases hname with ⟨-, rfl⟩ | ⟨-, rfl⟩ <;> exact bodyRead_of_silent hscope rfl trivial

theorem bodyRead_readBody {scope scope' : Scope} (hscope : scope.Sound) {stop : Token}
    (hstop : stop.Exists) {ts : List Token} (hts : ∀ t ∈ ts, t.Exists) {b : Option Body}
    {rest : Option Token} (h : readBody scope stop ts = .ok (scope', b, rest)) :
    BodyRead scope scope' b := by
  rcases readBody_cases h with
    ⟨rfl, rfl, -⟩ | ⟨t, us, rfl, ⟨-, rfl, c, rfl, hread⟩ | ⟨-, hread⟩⟩
  · exact ⟨.refl hscope, fun c hc => by cases hc⟩
  · obtain ⟨form, operands, rfl, hselected⟩ := selected_of_readInstruction hscope.aliases
      (fun u hu => hts u (List.mem_cons_of_mem t hu)) hread
    exact bodyRead_of_silent hscope rfl hselected
  · exact bodyRead_readDirective hscope hstop (fun u hu => hts u (List.mem_cons_of_mem t hu)) hread

/-! ### Lines -/

/-- What a line without errors leaves behind. -/
structure LineRead (scope : Scope) (r : LineResult) : Prop where
  grows : scope.Grows r.scope (r.statement.toList.flatMap Statement.symbols)
  wellFormed : ∀ s, r.statement = some s → ∀ b, s.body = some b → b.WellFormed

theorem symbols_statementOf? (l : Line) (label : Option Label) (body : Option Body) :
    (statementOf? l label body).toList.flatMap Statement.symbols =
      label.toList.map (·.symbol .label) ++ body.toList.flatMap Body.symbols := by
  unfold statementOf?
  dsimp only
  split
  · rename_i hempty
    obtain ⟨hlabel, hbody, _⟩ := hempty
    rw [Option.isNone_iff_eq_none] at hlabel hbody
    rw [hlabel, hbody]
    rfl
  · simp [Statement.symbols]

theorem body_of_statementOf? {l : Line} {label : Option Label} {body : Option Body}
    {s : Statement} (h : statementOf? l label body = some s) : s.body = body := by
  unfold statementOf? at h
  dsimp only at h
  split at h
  · cases h
  · cases h
    rfl

theorem hasErrors_of_parseRest {scope : Scope} {l : Line} {label : Option Label}
    {reports : List Diagnostic} {ts : List Token}
    (hok : hasErrors (parseRest scope l label reports ts).diagnostics = false) :
    hasErrors reports = false := by
  unfold parseRest at hok
  split at hok
  · rw [hasErrors_append, Bool.or_eq_false_iff] at hok
    exact hok.1
  · rw [hasErrors_append, Bool.or_eq_false_iff] at hok
    exact hok.1
  · exact hok

theorem line_of_parseRest {scope₀ scope : Scope} {l : Line} {label : Option Label}
    {ts : List Token} (hscope : scope₀.Grows scope (label.toList.map (·.symbol .label)))
    (hts : ∀ t ∈ ts, t.Exists)
    (hok : hasErrors (parseRest scope l label [] ts).diagnostics = false) :
    LineRead scope₀ (parseRest scope l label [] ts) := by
  unfold parseRest at hok ⊢
  split
  · rename_i d hd
    rw [hd] at hok
    have herror := refuses_readBody scope l.stop ts d hd
    simp [hasErrors, herror] at hok
  · rename_i hd
    rw [hd] at hok
    cases hok
  · rename_i scope' body hread
    obtain ⟨hgrows, hformed⟩ := bodyRead_readBody hscope.sound l.exists_stop hts hread
    constructor
    · rw [symbols_statementOf?]
      exact hscope.trans hgrows
    · intro s hs b hb
      rw [body_of_statementOf? hs] at hb
      exact hformed b hb

/-- **A line without errors** keeps the scope sound and adds the symbols that its statement
declares. -/
theorem line_of_noErrors {scope : Scope} (hscope : scope.Sound) {l : Line}
    (hok : hasErrors (parseLine scope l).diagnostics = false) :
    LineRead scope (parseLine scope l) := by
  have hts : ∀ t ∈ l.tokens, t.Exists := fun t ht => exists_of_mem_tokensFrom ht
  unfold parseLine at hok ⊢
  split
  · rename_i ts hsplit
    rw [hsplit] at hok
    exact line_of_parseRest (.refl hscope) (fun t ht => hts t (mem_splitLabel hsplit t ht)) hok
  · rename_i t ts hsplit
    rw [hsplit] at hok
    dsimp only at hok ⊢
    split
    · rename_i d hd
      rw [hd] at hok
      have herror := refuses_declareLabel scope t d hd
      simp [hasErrors, herror] at hok
    · rename_i scope' reports label hlabel
      rw [hlabel] at hok
      obtain ⟨rfl, hgrows⟩ := grows_declareLabel hscope hlabel (hasErrors_of_parseRest hok)
      exact line_of_parseRest hgrows (fun u hu => hts u (mem_splitLabel hsplit u hu)) hok

/-! ### Sources -/

/-- What a source without errors leaves behind. -/
structure SourceRead (scope : Scope) (p : Parsed) : Prop where
  nodup : p.symbols.names.Nodup
  symbols : p.symbols.symbols = scope.symbols.symbols ++ p.statements.flatMap Statement.symbols
  wellFormed : ∀ s ∈ p.statements, ∀ b, s.body = some b → b.WellFormed

theorem source_of_noErrors {scope : Scope} (hscope : scope.Sound) {ls : List Line}
    (hok : hasErrors (parseLines scope ls).diagnostics = false) :
    SourceRead scope (parseLines scope ls) := by
  induction ls generalizing scope with
  | nil => exact ⟨hscope.nodup, by simp [parseLines], fun s hs => by cases hs⟩
  | cons l ls ih =>
      rw [parseLines, hasErrors_append, Bool.or_eq_false_iff] at hok
      obtain ⟨hhead, htail⟩ := hok
      have hline := line_of_noErrors hscope hhead
      have hrest := ih hline.grows.sound htail
      constructor
      · exact hrest.nodup
      · show (parseLines _ ls).symbols.symbols = _
        rw [hrest.symbols, hline.grows.symbols]
        simp [parseLines]
      · intro s hs b hb
        rcases List.mem_append.mp hs with hs | hs
        · exact hline.wellFormed s (by simpa using hs) b hb
        · exact hrest.wellFormed s hs b hb

variable {source : String}

/-- **Symbols**: the table of a source without errors lists what its statements declare. -/
theorem symbols_parse (hok : hasErrors (parse source).diagnostics = false) :
    (parse source).symbols.symbols = (parse source).statements.flatMap Statement.symbols :=
  (source_of_noErrors Scope.sound_empty hok).symbols

/-- **Names**: a source without errors declares every name once, and the table lists the names in
the order of the statements that declare them. -/
theorem names_parse (hok : hasErrors (parse source).diagnostics = false) :
    (parse source).symbols.names.Nodup ∧
      (parse source).symbols.names = (parse source).statements.flatMap Statement.declared := by
  refine ⟨(source_of_noErrors Scope.sound_empty hok).nodup, ?_⟩
  unfold SymbolTable.names
  rw [symbols_parse hok, List.map_flatMap]
  simp only [Statement.map_name_symbols]

/-- **Instructions**: in a source without errors every instruction has a form from the table, and
operands that this form demands. -/
theorem wellFormed_of_parse (hok : hasErrors (parse source).diagnostics = false) {s : Statement}
    (hs : s ∈ (parse source).statements) {b : Body} (hb : s.body = some b) : b.WellFormed :=
  (source_of_noErrors Scope.sound_empty hok).wellFormed s hs b hb

end Chip8.Asm
