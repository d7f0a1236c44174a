import Chip8.Asm.Program
import Chip8.Proofs.Asm.Listing
import Chip8.Proofs.Asm.SymbolTable

/-! # Assembling a listing

The listing of words that the machine decodes is assembled to these words.

* **Lines.** `parse_listing`: every line is one instruction statement, and no name is declared.
* **Addresses.** `statements_listing`: the first pass has nothing to report.
* **Code.** `encodeStatements_listing`: the second pass gives back the words; all that it reports are
  odd addresses.
* **Programs.** `assemble_listing` puts the passes together. -/

namespace Chip8.Asm

/-! ### Lines -/

/-- An instruction statement whose instruction is a word. -/
structure Emits (w : UInt16) (s : Statement) : Prop where
  label : s.label = none
  body : ∃ i form ns, Instruction.decode w = some i ∧ FormOf w i form ∧
    s.body = some (.instruction form ns) ∧ Reads i.operands ns

theorem newline_not_mem {w : UInt16} {i : Instruction} {form : Form} (hform : FormOf w i form) :
    ∀ c ∈ i.text.toList, c ≠ '\n' := by
  intro c hc
  have hplain := List.all_eq_true.mp (isPlain_text hform) c hc
  rw [isPlain, Bool.and_eq_true] at hplain
  exact of_decide_eq_true hplain.1

/-- What follows a listing: the end of the file, or a newline in front of it. -/
def isEnding (cs : List Char) : Prop := cs = [] ∨ cs = ['\n']

theorem parseLines_ending {ending : List Char} (hending : isEnding ending) (scope : Scope)
    (offset : Nat) : parseLines scope (linesFrom offset ending) = ⟨[], scope.symbols, []⟩ := by
  rcases hending with rfl | rfl <;> rfl

/-- One more line in front. -/
theorem parseLines_cons {w : UInt16} {i : Instruction} (hi : Instruction.decode w = some i)
    {form : Form} (hform : FormOf w i form) {scope : Scope} (hscope : scope.aliases = [])
    {l : Line} (hl : l.chars = i.text.toList) {ls : List Line} {ws : List UInt16}
    (hls : ∃ ss, parseLines scope ls = ⟨ss, scope.symbols, []⟩ ∧ List.Forall₂ Emits ws ss) :
    ∃ ss, parseLines scope (l :: ls) = ⟨ss, scope.symbols, []⟩ ∧
      List.Forall₂ Emits (w :: ws) ss := by
  obtain ⟨s, hs, hinstructs⟩ := parseLine_listing hi hform hscope hl
  obtain ⟨ns, hbody, hreads⟩ := hinstructs.body
  obtain ⟨ss, hss, hall⟩ := hls
  refine ⟨s :: ss, ?_, .cons ⟨hinstructs.label, i, form, ns, hi, hform, hbody, hreads⟩ hall⟩
  rw [parseLines, hs]
  dsimp only
  rw [hss]
  rfl

/-- Every line of a listing is the statement of its word, and nothing is declared. -/
theorem parseLines_listing {ws : List UInt16} {is : List Instruction}
    (h : List.Forall₂ (fun w i => Instruction.decode w = some i) ws is) {ending : List Char}
    (hending : isEnding ending) (scope : Scope) (hscope : scope.aliases = []) (offset : Nat) :
    ∃ ss, parseLines scope (linesFrom offset
        (("\n".intercalate (is.map Instruction.text)).toList ++ ending)) =
      ⟨ss, scope.symbols, []⟩ ∧ List.Forall₂ Emits ws ss := by
  induction h generalizing offset with
  | nil =>
      refine ⟨[], ?_, .nil⟩
      rw [List.map_nil, String.intercalate_nil]
      exact parseLines_ending hending scope offset
  | @cons w i ws is hi his ih =>
      obtain ⟨form, hform⟩ := formOf_decode hi
      have hline := newline_not_mem hform
      cases his with
      | nil =>
          rw [List.map_singleton, String.intercalate_singleton]
          rcases hending with rfl | rfl
          · rw [List.append_nil, linesFrom_last hline]
            exact parseLines_cons hi hform hscope rfl ⟨[], rfl, .nil⟩
          · rw [linesFrom_newline hline]
            exact parseLines_cons hi hform hscope rfl ⟨[], rfl, .nil⟩
      | @cons w' i' ws is hi' his =>
          rw [List.map_cons, List.map_cons, String.intercalate_cons_cons, String.toList_append,
            String.toList_append, List.append_assoc, List.append_assoc]
          show ∃ ss, parseLines scope (linesFrom offset (i.text.toList ++ '\n' :: _)) = _ ∧ _
          rw [linesFrom_newline hline]
          exact parseLines_cons hi hform hscope rfl (ih _)

/-! ### Addresses -/

theorem advance_fits {a n : Nat} (h : a + n ≤ addressSpace) (span : Span) :
    Place.advance ⟨a, false⟩ n span = (⟨a + n, false⟩, []) := by
  have hspace : addressSpace = 0x10000 := rfl
  have hmod : (a + n) % 0x100000000 = a + n := Nat.mod_eq_of_lt (by omega)
  unfold Place.advance
  rw [hmod, if_neg fun hout => by omega]

theorem statement_of_emits {w : UInt16} {s : Statement} (hs : Emits w s) {symbols : SymbolTable}
    {a : Nat} (ha : a + 2 ≤ addressSpace) :
    Layout.statement ⟨⟨a, false⟩, symbols⟩ s = (⟨⟨a + 2, false⟩, symbols⟩, []) := by
  obtain ⟨_, form, ns, _, _, hbody, _⟩ := hs.body
  unfold Layout.statement
  rw [hs.label, hbody]
  dsimp only
  unfold Layout.body Layout.advance
  dsimp only
  rw [advance_fits ha]
  rfl

/-- The first pass over a listing reports nothing. -/
theorem statements_listing {ws : List UInt16} {ss : List Statement}
    (h : List.Forall₂ Emits ws ss) (symbols : SymbolTable) {a : Nat}
    (ha : a + 2 * ws.length ≤ addressSpace) :
    Layout.statements ⟨⟨a, false⟩, symbols⟩ ss =
      (⟨⟨a + 2 * ws.length, false⟩, symbols⟩, []) := by
  induction h generalizing a with
  | nil => rfl
  | @cons w s ws ss hs hss ih =>
      rw [List.length_cons] at ha
      rw [Layout.statements, statement_of_emits hs (by omega)]
      dsimp only
      rw [ih (by omega), List.length_cons, Nat.mul_add, Nat.mul_one, Nat.add_assoc,
        Nat.add_comm 2]
      rfl

/-! ### Code -/

theorem immediate_number (symbols : SymbolTable) (bits : Nat) {v : Nat} (hbits : bits ≤ 16)
    (hv : v < wordCount bits) (span : Span) :
    immediate symbols bits (.number (Int64.ofNat v) span) = .ok v.toUInt16 := by
  have hle : wordCount bits ≤ 2 ^ 16 := Nat.pow_le_pow_right (by decide) hbits
  have hvalue : (Int64.ofNat v).toInt = v := Int64.toInt_ofNat_of_lt (by omega)
  have hmod : ((v : Int) % wordCount bits) = v := Int.emod_eq_of_lt (by omega) (by omega)
  have hword : UInt16.ofInt (v : Int) = v.toUInt16 := by
    apply UInt16.toNat_inj.mp
    rw [UInt16.ofInt, UInt16.toNat_ofNat', Nat.toUInt16_eq, UInt16.toNat_ofNat']
    omega
  have hfit : fit? (Int64.ofNat v) bits = some v.toUInt16 := by
    unfold fit?
    dsimp only
    rw [hvalue, if_pos ⟨by omega, by omega⟩, hmod, hword]
  have hnumber : Node.numberIn symbols (.number (Int64.ofNat v) span) = .ok (Int64.ofNat v) := rfl
  unfold immediate
  rw [hnumber]
  dsimp only
  rw [hfit]

/-- The value of an operand of a listing is its own. -/
theorem slotValue_node {symbols : SymbolTable} {o : Operand} (ho : o.Valid) (span : Span) :
    slotValue symbols o.shape (o.node span) = .ok o.value.toUInt16 := by
  obtain ⟨shape, value⟩ := o
  cases shape with
  | register =>
      have hvalue : value < 16 := ho
      have hword : value.toUInt8.toUInt16 = value.toUInt16 := by
        apply UInt16.toNat_inj.mp
        rw [UInt8.toNat_toUInt16, Nat.toUInt8_eq, UInt8.toNat_ofNat', Nat.toUInt16_eq,
          UInt16.toNat_ofNat']
        omega
      exact congrArg Except.ok hword
  | registerZero =>
      obtain rfl : value = 0 := Nat.lt_one_iff.mp ho
      rfl
  | word k =>
      obtain rfl : value = 0 := Nat.lt_one_iff.mp ho
      rfl
  | nibble => exact immediate_number symbols 4 (by decide) ho span
  | byte => exact immediate_number symbols 8 (by decide) ho span
  | address => exact immediate_number symbols 12 (by decide) ho span

theorem slotValues_reads {symbols : SymbolTable} {os : List Operand} {ns : List Node}
    (hos : ∀ o ∈ os, o.Valid) (hreads : Reads os ns) :
    slotValues symbols (os.map Operand.shape) ns = (os.map fun o => o.value.toUInt16, []) := by
  induction hreads with
  | nil => rfl
  | @cons o n os ns hn hreads ih =>
      obtain ⟨span, rfl⟩ := hn
      rw [List.map_cons, slotValues, slotValue_node (hos o (List.mem_cons_self ..)),
        ih fun p hp => hos p (List.mem_cons_of_mem _ hp)]
      rfl

/-- Nothing but odd addresses is reported. -/
def OnlyMisaligned (ds : List Diagnostic) : Prop := ∀ d ∈ ds, ∃ a, d.cause = .misaligned a

theorem hasErrors_of_onlyMisaligned {ds : List Diagnostic} (h : OnlyMisaligned ds) :
    hasErrors ds = false := by
  rw [hasErrors, List.any_eq_false]
  intro d hd
  obtain ⟨a, ha⟩ := h d hd
  rw [Diagnostic.isError, Diagnostic.severity, ha, Cause.severity]
  decide

/-- The code of the statement of a word is the word. -/
theorem encodeStatement_of_emits {w : UInt16} {s : Statement} (hs : Emits w s)
    (symbols : SymbolTable) {a : Nat} (ha : a + 2 ≤ addressSpace) :
    (encodeStatement symbols ⟨a, false⟩ s).place = ⟨a + 2, false⟩ ∧
      (encodeStatement symbols ⟨a, false⟩ s).bytes = wordBytes w ∧
      OnlyMisaligned (encodeStatement symbols ⟨a, false⟩ s).diagnostics := by
  obtain ⟨i, form, ns, hi, hform, hbody, hreads⟩ := hs.body
  have hword : instructionWord symbols form ns = (w, []) := by
    rw [instructionWord, hform.signature, slotValues_reads (valid_of_decode hi) hreads]
    dsimp only
    rw [hform.encode]
    rfl
  have hput : Output.ofBytes ⟨a, false⟩ (wordBytes w) s.span =
      ⟨⟨a + 2, false⟩, wordBytes w, []⟩ := by
    have hspace : addressSpace = 0x10000 := rfl
    have hshort : (wordBytes w).length ≤ addressSpace - a := by
      show 2 ≤ addressSpace - a
      omega
    have hadvance : Place.advance ⟨a, false⟩ (wordBytes w).length s.span = (⟨a + 2, false⟩, []) :=
      advance_fits ha s.span
    unfold Output.ofBytes Place.fitting
    rw [hadvance, List.take_of_length_le hshort]
    rfl
  unfold encodeStatement
  rw [hbody]
  dsimp only
  unfold encodeBody
  dsimp only
  rw [hword, hput]
  refine ⟨rfl, rfl, fun d hd => ?_⟩
  simp only [Output.reporting, alignment, List.append_nil] at hd
  split at hd
  · cases hd
  · rw [List.mem_singleton.mp hd]
    exact ⟨a, rfl⟩

theorem encodeStatements_listing {ws : List UInt16} {ss : List Statement}
    (h : List.Forall₂ Emits ws ss) (symbols : SymbolTable) {a : Nat}
    (ha : a + 2 * ws.length ≤ addressSpace) :
    (encodeStatements symbols ⟨a, false⟩ ss).bytes = ws.flatMap wordBytes ∧
      OnlyMisaligned (encodeStatements symbols ⟨a, false⟩ ss).diagnostics := by
  induction h generalizing a with
  | nil => exact ⟨rfl, fun d hd => by cases hd⟩
  | @cons w s ws ss hs hss ih =>
      rw [List.length_cons] at ha
      obtain ⟨hplace, hbytes, honly⟩ := encodeStatement_of_emits hs symbols (a := a) (by omega)
      obtain ⟨hrest, honly'⟩ := ih (a := a + 2) (by omega)
      unfold encodeStatements Output.andThen
      rw [hplace]
      refine ⟨?_, fun d hd => ?_⟩
      · show _ ++ _ = _
        rw [hbytes, hrest, List.flatMap_cons]
      · rcases List.mem_append.mp hd with hd | hd
        · exact honly d hd
        · exact honly' d hd

/-! ### Programs -/

theorem unusedLabels_empty (ss : List Statement) :
    unusedLabels (markReferences SymbolTable.empty ss) = [] := by
  have hnames := SymbolTable.names_foldl_markUsed SymbolTable.empty
    (ss.flatMap Statement.references)
  have hsymbols : (markReferences SymbolTable.empty ss).symbols = [] :=
    List.map_eq_nil_iff.mp hnames
  rw [unusedLabels, hsymbols]
  rfl

/-- **Disassemble, then assemble**: the listing of words that are decoded, one instruction a line, is
assembled to the words wherever they fit, and nothing but odd addresses is reported. -/
theorem assemble_listing {ws : List UInt16} {is : List Instruction}
    (h : List.Forall₂ (fun w i => Instruction.decode w = some i) ws is) {ending : String}
    (hending : ending = "" ∨ ending = "\n") {origin : UInt16}
    (hfits : origin.toNat + 2 * ws.length ≤ 0x10000) :
    ∃ p, assemble ("\n".intercalate (is.map Instruction.text) ++ ending) origin = .ok p ∧
      p.bytes = ws.flatMap wordBytes ∧ OnlyMisaligned p.notes := by
  have hend : isEnding ending.toList := by
    rcases hending with rfl | rfl
    · exact Or.inl rfl
    · exact Or.inr rfl
  obtain ⟨ss, hparse, hss⟩ := parseLines_listing h hend .empty rfl 0
  have hsource : parse ("\n".intercalate (is.map Instruction.text) ++ ending) =
      ⟨ss, .empty, []⟩ := by
    rw [parse, lines, String.toList_append]
    exact hparse
  have hlayout := statements_listing hss .empty (a := origin.toNat) hfits
  obtain ⟨hbytes, honly⟩ := encodeStatements_listing hss .empty (a := origin.toNat) hfits
  have hcode : hasErrors (encodeStatements .empty ⟨origin.toNat, false⟩ ss).diagnostics = false :=
    hasErrors_of_onlyMisaligned honly
  refine ⟨⟨origin, _, markReferences .empty ss, _⟩, ?_, hbytes, honly⟩
  unfold assemble assembleParsed
  rw [hsource]
  dsimp only [Place.ofOrigin]
  rw [hlayout]
  dsimp only
  rw [unusedLabels_empty, List.append_nil, List.append_nil, List.nil_append, hcode]
  rfl

/-- A word at an odd address, and the last one that fits. -/
theorem assemble_listing_last :
    ∃ p, assemble ("\n".intercalate
        ([.ldByte 3 0x7F, .drw 1 2 5].map Instruction.text) ++ "\n") 0xFFFB = .ok p ∧
      p.bytes = [0x637F, 0xD125].flatMap wordBytes ∧ OnlyMisaligned p.notes :=
  assemble_listing (.cons (by decide) (.cons (by decide) .nil)) (Or.inr rfl) (by decide)

end Chip8.Asm
