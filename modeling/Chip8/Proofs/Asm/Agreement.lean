import Chip8.Proofs.Asm.Layout

/-! # Agreement

The two passes of the assembler agree on where everything is.

* **Statements.** `placed_of_noErrors`: the first pass gives a statement the address at which the
  second one puts its code, and both move on by its size in the table that is complete.
* **Runs.** `Agreement` follows the statements of a program; it holds of every program that is
  assembled (`agreement_of_assemble`).
* **Programs.** `Program.LaidOut` says where every statement is and what every symbol stands for;
  every program is laid out (`assemble_laidOut`). -/

namespace Chip8.Asm

variable {symbols : SymbolTable}

/-! ### Statements -/

/-- A body that only moves the address. -/
def Body.isGap : Body → Bool
  | .origin _ | .reserve _ => true
  | _ => false

/-- The bytes are the code of a statement at `a`, and what the table says of it is right there. -/
structure Placed (symbols : SymbolTable) (a : Nat) (s : Statement) (code : List UInt8) : Prop where
  size : s.size? symbols a = some code.length
  label : ∀ label, s.label = some label →
    ∃ v, symbols.lookup label.name = .value v ∧ v.toInt = a
  constant : ∀ name value, s.body = some (.constant name value) →
    ∃ v, value.numberIn symbols = .ok v ∧ symbols.lookup name.name = .value v
  code_eq : code = (encodeStatement symbols ⟨a, false⟩ s).bytes
  noErrors : hasErrors (encodeStatement symbols ⟨a, false⟩ s).diagnostics = false
  zeros : ∀ b, s.body = some b → b.isGap = true → code = List.replicate code.length 0

/-- The bytes are the code of statements one behind the other from `a` on, each one placed where the
one before it ends. -/
inductive Agreement (symbols : SymbolTable) : Nat → List Statement → List UInt8 → Prop where
  | nil {a : Nat} (fits : a ≤ addressSpace) : Agreement symbols a [] []
  | cons {a : Nat} {s : Statement} {ss : List Statement} {code bytes : List UInt8}
      (placed : Placed symbols a s code) (rest : Agreement symbols (a + code.length) ss bytes) :
      Agreement symbols a (s :: ss) (code ++ bytes)

theorem zeros_of_isGap {a : Nat} (ha : a ≤ addressSpace) {span : Span} {b : Body}
    (hgap : b.isGap = true)
    (h : hasErrors (encodeBody symbols span ⟨a, false⟩ b).diagnostics = false) :
    ∃ n, (encodeBody symbols span ⟨a, false⟩ b).bytes = List.replicate n 0 := by
  have hspace : addressSpace = 0x10000 := rfl
  cases b with
  | origin n =>
      obtain ⟨k, _, _, hbytes⟩ := takes_encodeZeros ha (refuses_gap symbols a n)
        (fun k hk => by obtain ⟨v, _, _, hv, rfl⟩ := gap_eq_ok hk; omega) h
      exact ⟨k, hbytes⟩
  | reserve n =>
      obtain ⟨k, _, _, hbytes⟩ := takes_encodeZeros ha (refuses_reservation symbols n)
        (fun k hk => by obtain ⟨v, _, _, hv, rfl⟩ := reservation_eq_ok hk; omega) h
      exact ⟨k, hbytes⟩
  | instruction form operands => cases hgap
  | constant name value => cases hgap
  | bytes values => cases hgap
  | words values => cases hgap

theorem toInt_ofNat_of_le {a : Nat} (ha : a ≤ addressSpace) : (Int64.ofNat a).toInt = a := by
  have hspace : addressSpace = 0x10000 := rfl
  exact Int64.toInt_ofNat_of_lt (by omega)

/-- **Agreement of one statement**: both passes move by the size of the statement in the table that
is complete, the first one with the table that it has by then. -/
theorem placed_of_noErrors {l : Layout} {a : Nat} (hl : l.place = ⟨a, false⟩)
    (ha : a ≤ addressSpace) {s : Statement} (hlayout : hasErrors (l.statement s).2 = false)
    (hfinal : (l.statement s).1.symbols.Extends symbols)
    (hcode : hasErrors (encodeStatement symbols ⟨a, false⟩ s).diagnostics = false) :
    Placed symbols a s (encodeStatement symbols ⟨a, false⟩ s).bytes ∧
      ∃ n, (encodeStatement symbols ⟨a, false⟩ s).Takes a n ∧
        (l.statement s).1.place = ⟨a + n, false⟩ := by
  obtain ⟨n, hsize, htakes⟩ := size_of_encodeStatement ha hcode
  obtain ⟨m, hm, hnone, hsome⟩ := Layout.statement_of_noErrors hlayout
  have hplace : m.place = ⟨a, false⟩ := hm.place.trans hl
  have hknown : m.symbols.Extends symbols := by
    cases hbody : s.body with
    | none =>
        rw [hnone hbody] at hfinal
        exact hfinal
    | some b =>
        rw [(hsome b hbody).1] at hfinal
        exact (Layout.extends_body s.span b).1.trans hfinal
  refine ⟨⟨?_, ?_, ?_, rfl, hcode, ?_⟩, n, htakes, ?_⟩
  · rw [htakes.length]
    exact hsize
  · intro label hlabel
    have hvalue := hknown.value _ _ (hm.value label hlabel)
    rw [hl] at hvalue
    exact ⟨_, hvalue, toInt_ofNat_of_le ha⟩
  · intro name value hbody
    obtain ⟨hstatement, hok⟩ := hsome _ hbody
    obtain ⟨v, hv, hlookup⟩ := Layout.lookup_constant hok
    rw [hstatement] at hfinal
    exact ⟨v, Node.numberIn_mono hknown hv, hfinal.value _ _ hlookup⟩
  · intro b hbody hgap
    unfold encodeStatement at hcode ⊢
    rw [hbody] at hcode ⊢
    obtain ⟨k, hk⟩ := zeros_of_isGap ha hgap hcode
    dsimp only
    rw [hk, List.length_replicate]
  · unfold Statement.size? at hsize
    cases hbody : s.body with
    | none =>
        rw [hbody] at hsize
        cases hsize
        rw [hnone hbody, hplace]
        rfl
    | some b =>
        rw [hbody] at hsize
        obtain ⟨hstatement, hok⟩ := hsome b hbody
        rw [hstatement]
        exact Layout.place_body hplace hknown hsize htakes.fits hok

/-- **Agreement of a run** of both passes over the statements of a program. -/
theorem agreement_of_noErrors {l : Layout} {a : Nat} (hl : l.place = ⟨a, false⟩)
    (ha : a ≤ addressSpace) {ss : List Statement} (hlayout : hasErrors (l.statements ss).2 = false)
    (hfinal : (l.statements ss).1.symbols.Extends symbols)
    (hcode : hasErrors (encodeStatements symbols ⟨a, false⟩ ss).diagnostics = false) :
    Agreement symbols a ss (encodeStatements symbols ⟨a, false⟩ ss).bytes := by
  induction ss generalizing l a with
  | nil => exact .nil ha
  | cons s ss ih =>
      unfold Layout.statements at hlayout hfinal
      rw [hasErrors_append, Bool.or_eq_false_iff] at hlayout
      obtain ⟨hhead, htail⟩ := hlayout
      unfold encodeStatements at hcode ⊢
      rw [Output.hasErrors_andThen, Bool.or_eq_false_iff] at hcode
      have hknown := (Layout.extends_statements htail).1.trans hfinal
      obtain ⟨hplaced, n, htakes, hplace⟩ := placed_of_noErrors hl ha hhead hknown hcode.1
      have hnext := hcode.2
      rw [htakes.place] at hnext
      have hrest := ih hplace htakes.fits htail hfinal hnext
      unfold Output.andThen
      rw [htakes.place]
      refine .cons hplaced ?_
      rw [htakes.length]
      exact hrest

namespace Agreement

variable {a : Nat} {ss : List Statement} {bytes : List UInt8}

theorem fits (h : Agreement symbols a ss bytes) : a + bytes.length ≤ addressSpace := by
  induction h with
  | nil fits => exact fits
  | cons _ _ ih =>
      rw [List.length_append]
      omega

/-- The address behind the last statement. -/
theorem addressAt?_length (h : Agreement symbols a ss bytes) :
    addressAt? symbols a ss ss.length = some (a + bytes.length) := by
  induction h with
  | nil => rfl
  | cons placed _ ih =>
      rw [List.length_cons, addressAt?, placed.size]
      simp only [ih, List.length_append, Nat.add_assoc]

/-- A statement of the list is placed at its address, behind the bytes of the ones before it. -/
theorem statement (h : Agreement symbols a ss bytes) {i : Nat} {s : Statement}
    (hs : ss[i]? = some s) :
    ∃ before code after, bytes = before ++ code ++ after ∧
      addressAt? symbols a ss i = some (a + before.length) ∧
      addressAt? symbols a ss (i + 1) = some (a + before.length + code.length) ∧
      Placed symbols (a + before.length) s code := by
  induction h generalizing i with
  | nil => simp at hs
  | @cons a s' ss code bytes placed rest ih =>
      cases i with
      | zero =>
          rw [List.getElem?_cons_zero] at hs
          cases hs
          refine ⟨[], code, bytes, rfl, rfl, ?_, placed⟩
          rw [addressAt?, placed.size]
          rfl
      | succ i =>
          rw [List.getElem?_cons_succ] at hs
          obtain ⟨before, code', after, hbytes, hthis, hnext, hplaced⟩ := ih hs
          have hsum : a + (code ++ before).length = a + code.length + before.length := by
            rw [List.length_append]
            omega
          refine ⟨code ++ before, code', after, ?_, ?_, ?_, ?_⟩
          · rw [hbytes]
            simp only [List.append_assoc]
          · rw [addressAt?, placed.size, hsum]
            exact hthis
          · rw [addressAt?, placed.size, hsum]
            exact hnext
          · rw [hsum]
            exact hplaced

theorem placed_of_mem (h : Agreement symbols a ss bytes) {s : Statement} (hs : s ∈ ss) :
    ∃ b code, Placed symbols b s code := by
  obtain ⟨i, hi⟩ := List.mem_iff_getElem?.mp hs
  obtain ⟨before, code, _, _, _, _, hplaced⟩ := h.statement hi
  exact ⟨_, code, hplaced⟩

/-- Every name that a statement declares has a value. -/
theorem valued (h : Agreement symbols a ss bytes) {name : Identifier}
    (hname : name ∈ ss.flatMap Statement.declared) : ∃ v, symbols.lookup name = .value v := by
  obtain ⟨s, hs, hname⟩ := List.mem_flatMap.mp hname
  obtain ⟨b, code, hplaced⟩ := h.placed_of_mem hs
  rw [Statement.declared, List.mem_append, List.mem_map, List.mem_flatMap] at hname
  rcases hname with ⟨label, hlabel, rfl⟩ | ⟨body, hbody, hname⟩
  · obtain ⟨v, hv, _⟩ := hplaced.label label (by simpa using hlabel)
    exact ⟨v, hv⟩
  · cases body with
    | constant label value =>
        obtain rfl : name = label.name := by simpa [Body.declared] using hname
        obtain ⟨v, _, hv⟩ := hplaced.constant label value (by simpa using hbody)
        exact ⟨v, hv⟩
    | instruction form operands => simp [Body.declared] at hname
    | origin n => simp [Body.declared] at hname
    | bytes values => simp [Body.declared] at hname
    | words values => simp [Body.declared] at hname
    | reserve n => simp [Body.declared] at hname

end Agreement

/-! ### Marking -/

section Marking

variable {t t' : SymbolTable} (h : ∀ i, t'.lookup i = t.lookup i)

include h

theorem immediate_congr (bits : Nat) (n : Node) : immediate t' bits n = immediate t bits n := by
  unfold immediate
  rw [Node.numberIn_congr h]

theorem slotValue_congr (shape : Shape) (n : Node) : slotValue t' shape n = slotValue t shape n := by
  unfold slotValue
  cases shape.bits with
  | none => rfl
  | some bits => exact immediate_congr h bits n

theorem slotValues_congr (shapes : List Shape) (ns : List Node) :
    slotValues t' shapes ns = slotValues t shapes ns := by
  induction shapes generalizing ns with
  | nil => rfl
  | cons shape shapes ih =>
      cases ns with
      | nil => rfl
      | cons n ns =>
          unfold slotValues
          rw [slotValue_congr h, ih]

theorem encodeValues_congr (bits : Nat) (toBytes : UInt16 → List UInt8) (span : Span) (p : Place)
    (ns : List Node) :
    encodeValues t' bits toBytes span p ns = encodeValues t bits toBytes span p ns := by
  induction ns generalizing p with
  | nil => rfl
  | cons n ns ih =>
      unfold encodeValues
      rw [immediate_congr h]
      simp only [ih]

/-- Code depends on a table only through what it knows. -/
theorem encodeStatement_congr (p : Place) (s : Statement) :
    encodeStatement t' p s = encodeStatement t p s := by
  unfold encodeStatement
  cases s.body with
  | none => rfl
  | some b =>
      cases b with
      | instruction form operands =>
          simp only [encodeBody, instructionWord, slotValues_congr h]
      | constant name value => rfl
      | origin n => simp only [encodeBody, gap, Node.numberIn_congr h]
      | bytes values => exact encodeValues_congr h 8 _ _ p values
      | words values => exact encodeValues_congr h 16 _ _ p values
      | reserve n => simp only [encodeBody, reservation, Node.numberIn_congr h]

theorem encodeStatements_congr (p : Place) (ss : List Statement) :
    encodeStatements t' p ss = encodeStatements t p ss := by
  induction ss generalizing p with
  | nil => rfl
  | cons s ss ih =>
      unfold encodeStatements
      rw [encodeStatement_congr h]
      simp only [ih]

end Marking

theorem lookup_markReferences (t : SymbolTable) (ss : List Statement) (i : Identifier) :
    (markReferences t ss).lookup i = t.lookup i :=
  SymbolTable.lookup_foldl_markUsed t _

/-! ### Programs -/

theorem hasErrors_unusedLabels (t : SymbolTable) : hasErrors (unusedLabels t) = false := by
  simp [hasErrors, unusedLabels, Diagnostic.isError, Diagnostic.severity, Cause.severity]

/-- **A program is there** if and only if there is no error in the lines and in either pass. It has its
symbols from the first pass and its bytes from the second. -/
theorem assembleParsed_eq_ok {P : Parsed} {origin : UInt16} {program : Program} :
    assembleParsed P origin = .ok program ↔
      let layout := Layout.statements ⟨.ofOrigin origin, P.symbols⟩ P.statements
      let code := encodeStatements layout.1.symbols (.ofOrigin origin) P.statements
      let symbols := markReferences layout.1.symbols P.statements
      hasErrors P.diagnostics = false ∧ hasErrors layout.2 = false ∧
        hasErrors code.diagnostics = false ∧
        program = ⟨origin, code.bytes, symbols,
          P.diagnostics ++ layout.2 ++ code.diagnostics ++ unusedLabels symbols⟩ := by
  dsimp only
  unfold assembleParsed
  dsimp only
  simp only [hasErrors_append, hasErrors_unusedLabels, Bool.or_false]
  cases hasErrors P.diagnostics with
  | true => simp
  | false =>
      cases hasErrors (Layout.statements ⟨.ofOrigin origin, P.symbols⟩ P.statements).2 with
      | true => simp
      | false =>
          cases hasErrors (encodeStatements _ (.ofOrigin origin) P.statements).diagnostics with
          | true => simp
          | false => simp [eq_comm]

/-- What is known of a program that was assembled. -/
structure Assembled (source : String) (origin : UInt16) (p : Program) : Prop where
  parsed : hasErrors (parse source).diagnostics = false
  origin_eq : p.origin = origin
  names : p.symbols.names = (parse source).symbols.names
  agreement : Agreement p.symbols origin.toNat (parse source).statements p.bytes

/-- **Agreement of the passes** on every program. -/
theorem agreement_of_assemble {source : String} {origin : UInt16} {p : Program}
    (h : assemble source origin = .ok p) : Assembled source origin p := by
  obtain ⟨hparsed, hlayout, hcode, rfl⟩ := assembleParsed_eq_ok.mp h
  have hsame := lookup_markReferences
    (Layout.statements ⟨.ofOrigin origin, (parse source).symbols⟩
      (parse source).statements).1.symbols (parse source).statements
  have hnames := SymbolTable.names_foldl_markUsed
    (Layout.statements ⟨.ofOrigin origin, (parse source).symbols⟩
      (parse source).statements).1.symbols
    ((parse source).statements.flatMap Statement.references)
  refine ⟨hparsed, rfl, hnames.trans (Layout.extends_statements hlayout).2, ?_⟩
  dsimp only
  rw [← encodeStatements_congr hsame] at hcode ⊢
  exact agreement_of_noErrors rfl (Nat.le_of_lt origin.toNat_lt) hlayout (.of_lookup_eq hsame) hcode

/-- Where the parts of a program are, and what its symbols stand for. -/
structure Program.LaidOut (p : Program) (ss : List Statement) : Prop where
  /-- The symbols are the names that the statements declare. -/
  declared : p.symbols.names = ss.flatMap Statement.declared
  valued : ∀ symbol ∈ p.symbols.symbols,
    ∃ v, symbol.value = some v ∧ p.symbols.lookup symbol.name = .value v
  /-- A statement takes the bytes from its address up to that of the next one. -/
  statements : ∀ i s, ss[i]? = some s →
    ∃ a b, addressAt? p.symbols p.origin.toNat ss i = some a ∧
      addressAt? p.symbols p.origin.toNat ss (i + 1) = some b ∧
      p.origin.toNat ≤ a ∧ a ≤ b ∧ b ≤ addressSpace ∧
      Placed p.symbols a s ((p.bytes.drop (a - p.origin.toNat)).take (b - a))
  length : addressAt? p.symbols p.origin.toNat ss ss.length =
    some (p.origin.toNat + p.bytes.length)
  fits : p.origin.toNat + p.bytes.length ≤ addressSpace

namespace Assembled

variable {source : String} {origin : UInt16} {p : Program}

theorem valued (h : Assembled source origin p) {symbol : Symbol}
    (hsymbol : symbol ∈ p.symbols.symbols) :
    ∃ v, symbol.value = some v ∧ p.symbols.lookup symbol.name = .value v := by
  obtain ⟨hnodup, hdeclared⟩ := names_parse h.parsed
  rw [← h.names] at hnodup hdeclared
  have hname : symbol.name ∈ p.symbols.names := List.mem_map_of_mem hsymbol
  rw [hdeclared] at hname
  obtain ⟨v, hv⟩ := h.agreement.valued hname
  refine ⟨v, ?_, hv⟩
  rw [SymbolTable.lookup, SymbolTable.get?_of_mem hnodup hsymbol] at hv
  cases hvalue : symbol.value with
  | none => simp [hvalue] at hv
  | some u => simpa [hvalue] using hv

theorem statement (h : Assembled source origin p) {i : Nat} {s : Statement}
    (hs : (parse source).statements[i]? = some s) :
    ∃ a b, addressAt? p.symbols p.origin.toNat (parse source).statements i = some a ∧
      addressAt? p.symbols p.origin.toNat (parse source).statements (i + 1) = some b ∧
      p.origin.toNat ≤ a ∧ a ≤ b ∧ b ≤ addressSpace ∧
      Placed p.symbols a s ((p.bytes.drop (a - p.origin.toNat)).take (b - a)) := by
  obtain ⟨before, code, after, hbytes, hthis, hnext, hplaced⟩ := h.agreement.statement hs
  have hfits := h.agreement.fits
  rw [hbytes, List.length_append, List.length_append] at hfits
  rw [h.origin_eq]
  refine ⟨_, _, hthis, hnext, by omega, by omega, by omega, ?_⟩
  rw [Nat.add_sub_cancel_left, Nat.add_sub_cancel_left, hbytes, List.append_assoc,
    List.drop_left, List.take_left]
  exact hplaced

end Assembled

/-- **Two-pass agreement**: the addresses that the first pass gives out are those at which the
second one puts the code. -/
theorem assemble_laidOut {source : String} {origin : UInt16} {p : Program}
    (h : assemble source origin = .ok p) :
    p.origin = origin ∧ p.LaidOut (parse source).statements := by
  have hp := agreement_of_assemble h
  obtain ⟨_, hdeclared⟩ := names_parse hp.parsed
  refine ⟨hp.origin_eq, hp.names.trans hdeclared, fun symbol hsymbol => hp.valued hsymbol,
    fun i s hs => hp.statement hs, ?_, ?_⟩
  · rw [hp.origin_eq]
    exact hp.agreement.addressAt?_length
  · rw [hp.origin_eq]
    exact hp.agreement.fits

/-- A jump over a gap that a constant measures. -/
def gapSource : String := ".equ N, 3\nJP end\n.reserve N\nend: .word N, end / 2\n"

theorem assemble_laidOut_gapSource :
    ∃ p, assemble gapSource 0x200 = .ok p ∧
      p.origin = 0x200 ∧ p.LaidOut (parse gapSource).statements := by
  cases h : assemble gapSource 0x200 with
  | ok p => exact ⟨p, rfl, assemble_laidOut h⟩
  | error ds =>
      have hok : (assemble gapSource 0x200).toBool = true := by decide +kernel
      rw [h] at hok
      cases hok

end Chip8.Asm
