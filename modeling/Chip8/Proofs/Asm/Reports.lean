import Chip8.Proofs.Asm.Layout
import Mathlib.Algebra.Group.Int.Defs

/-! # What the second pass reports

The second pass goes on behind a bad operand: zeros stand in for it, so that all that follows is
judged as if nothing had happened.

* **Operands.** `operandError?` is what is wrong with an operand on its own; `Statement.immediates`
  lists the operands of a statement that become words, with their widths.
* **Code.** `Output.Reports` says how far a part of a program moves and what it reports, leaving the
  address space aside. Parts add up (`Output.Reports.andThen`), so the report of a statement is a
  list in its own right (`reports_encodeStatement`), whatever is wrong in front of it.
* **Counts.** Both passes move by `Body.count`, each in its own table; a count that the first pass
  finds is kept in every table that knows more (`Body.count_mono`). -/

namespace Chip8.Asm

variable {symbols : SymbolTable}

/-! ### Operands -/

/-- What is wrong with an operand of so many bits: that it has no value, or that no word of this
width, be it signed or unsigned, has its value. -/
def operandError? (symbols : SymbolTable) (bits : Nat) (n : Node) : Option Diagnostic :=
  match n.numberIn symbols with
  | .error e => some ⟨.evaluation e, e.span⟩
  | .ok v =>
      if -(2 ^ (bits - 1) : Int) ≤ v.toInt ∧ v.toInt < 2 ^ bits then none
      else some ⟨.outOfRange v bits, n.span⟩

/-- The operands of a body that become words, and the widths of these. -/
def Body.immediates : Body → List (Nat × Node)
  | .instruction form operands =>
      (form.signature.zip operands).filterMap fun (shape, n) => shape.bits.map fun bits => (bits, n)
  | .bytes values => values.map fun n => (8, n)
  | .words values => values.map fun n => (16, n)
  | .constant .. | .origin _ | .reserve _ => []

/-- The operands of a statement that become words, and the widths of these. -/
def Statement.immediates (s : Statement) : List (Nat × Node) :=
  s.body.toList.flatMap Body.immediates

/-- What is wrong with the operands of a statement. -/
def Statement.badOperands (symbols : SymbolTable) (s : Statement) : List Diagnostic :=
  s.immediates.filterMap fun (bits, n) => operandError? symbols bits n

/-- A statement that an instruction is in is best at an even address. -/
def Statement.alignment (address : Nat) (s : Statement) : List Diagnostic :=
  match s.body with
  | some (.instruction ..) => Asm.alignment address s.span
  | _ => []

theorem isError_of_operandError? {bits : Nat} {n : Node} {d : Diagnostic}
    (h : operandError? symbols bits n = some d) : d.isError = true ∧ d.cause ≠ .overflow := by
  unfold operandError? at h
  split at h
  · cases h
    exact ⟨rfl, by simp⟩
  · split at h
    · cases h
    · cases h
      exact ⟨rfl, by simp⟩

theorem isError_of_mem_badOperands {s : Statement} {d : Diagnostic}
    (h : d ∈ s.badOperands symbols) : d.isError = true ∧ d.cause ≠ .overflow := by
  obtain ⟨x, -, hx⟩ := List.mem_filterMap.mp h
  exact isError_of_operandError? hx

theorem fit?_isSome_iff (value : Int64) (bits : Nat) :
    (fit? value bits).isSome ↔ -(2 ^ (bits - 1) : Int) ≤ value.toInt ∧ value.toInt < 2 ^ bits := by
  have hcast : ∀ k, (wordCount k : Int) = 2 ^ k := fun k => by simp [wordCount]
  unfold fit?
  dsimp only
  rw [hcast, hcast]
  split
  · rename_i hrange
    exact iff_of_true rfl hrange
  · rename_i hrange
    exact iff_of_false (by simp) hrange

/-- An operand is reported on its own. -/
theorem reports_immediate (symbols : SymbolTable) (bits : Nat) (n : Node) :
    (orReport 0 (immediate symbols bits n)).2 = (operandError? symbols bits n).toList := by
  unfold immediate operandError?
  cases n.numberIn symbols with
  | error e => rfl
  | ok v =>
      have hfit := fit?_isSome_iff v bits
      dsimp only
      cases hv : fit? v bits with
      | none =>
          rw [hv] at hfit
          rw [if_neg (fun h => by simpa using hfit.mpr h)]
          rfl
      | some w =>
          rw [hv] at hfit
          rw [if_pos (hfit.mp rfl)]
          rfl

theorem reports_slotValue (symbols : SymbolTable) (shape : Shape) (n : Node) :
    (orReport 0 (slotValue symbols shape n)).2 =
      ((shape.bits.map fun bits => (bits, n)).bind
        fun (bits, n) => operandError? symbols bits n).toList := by
  unfold slotValue
  cases shape.bits with
  | some bits => exact reports_immediate symbols bits n
  | none => cases n <;> rfl

/-- The operands of an instruction are reported one by one. -/
theorem reports_slotValues (symbols : SymbolTable) (shapes : List Shape) (ns : List Node) :
    (slotValues symbols shapes ns).2 =
      ((shapes.zip ns).filterMap fun (shape, n) =>
        shape.bits.map fun bits => (bits, n)).filterMap
          fun (bits, n) => operandError? symbols bits n := by
  induction shapes generalizing ns with
  | nil => rfl
  | cons shape shapes ih =>
      cases ns with
      | nil => rfl
      | cons n ns =>
          rw [slotValues]
          dsimp only
          rw [reports_slotValue, ih, List.zip_cons_cons, List.filterMap_filterMap,
            List.filterMap_filterMap, List.filterMap_cons]
          cases (shape.bits.map fun bits => (bits, n)).bind
            fun (bits, n) => operandError? symbols bits n <;> rfl

/-! ### Parts of a program -/

/-- What is put behind `p` moves by `n` bytes and reports `ds`, apart from leaving the address space.
It does not leave it where there is room. -/
structure Output.Reports (o : Output) (p : Place) (n : Nat) (ds : List Diagnostic) : Prop where
  address : o.place.address = (p.address + n) % 0x100000000
  reports : o.diagnostics.filter (·.cause ≠ .overflow) = ds
  room : p.overflowed = false → p.address + n ≤ addressSpace →
    o.place.overflowed = false ∧ o.diagnostics = ds

namespace Output.Reports

variable {o : Output} {p : Place} {n m : Nat} {ds ds' : List Diagnostic}

theorem nothing (hp : p.address < 0x100000000) : (Output.nothing p).Reports p 0 [] :=
  ⟨(Nat.mod_eq_of_lt hp).symm, rfl, fun h _ => ⟨h, rfl⟩⟩

theorem reporting (h : o.Reports p n ds) (reports : List Diagnostic)
    (hreports : ∀ d ∈ reports, d.cause ≠ .overflow) :
    (o.reporting reports).Reports p n (reports ++ ds) := by
  refine ⟨h.address, ?_, fun hp hn => ?_⟩
  · have hkept : reports.filter (·.cause ≠ .overflow) = reports := by
      rw [List.filter_eq_self]
      exact fun d hd => decide_eq_true (hreports d hd)
    rw [Output.reporting, List.filter_append, hkept, h.reports]
  · obtain ⟨hplace, hdiagnostics⟩ := h.room hp hn
    exact ⟨hplace, by rw [Output.reporting, hdiagnostics]⟩

theorem andThen (h : o.Reports p n ds) {next : Place → Output}
    (hnext : (next o.place).Reports o.place m ds') :
    (o.andThen next).Reports p (n + m) (ds ++ ds') := by
  refine ⟨?_, ?_, fun hp hroom => ?_⟩
  · show (next o.place).place.address = _
    rw [hnext.address, h.address, Nat.mod_add_mod, Nat.add_assoc]
  · rw [Output.andThen, List.filter_append, h.reports, hnext.reports]
  · obtain ⟨hplace, hdiagnostics⟩ := h.room hp (by omega)
    have haddress : o.place.address = p.address + n := by
      rw [h.address]
      unfold addressSpace at hroom
      omega
    obtain ⟨hplace', hdiagnostics'⟩ := hnext.room hplace (by omega)
    exact ⟨hplace', by rw [Output.andThen, hdiagnostics, hdiagnostics']⟩

theorem ofBytes (p : Place) (bytes : List UInt8) (span : Span) :
    (Output.ofBytes p bytes span).Reports p bytes.length [] := by
  unfold Output.ofBytes Place.advance
  dsimp only
  split
  · rename_i hleaves
    refine ⟨rfl, by simp, fun hp hroom => ?_⟩
    unfold addressSpace at hleaves hroom
    omega
  · exact ⟨rfl, rfl, fun hp _ => ⟨hp, rfl⟩⟩

end Output.Reports

/-! ### Counts -/

/-- The number of bytes that a body asks for at an address. -/
def Body.count (symbols : SymbolTable) (address : Nat) : Body → Except Diagnostic Nat
  | .instruction .. => .ok 2
  | .constant .. => .ok 0
  | .origin n => gap symbols address n
  | .bytes values => .ok values.length
  | .words values => .ok (2 * values.length)
  | .reserve n => reservation symbols n

/-- The number of bytes that a statement asks for at an address. -/
def Statement.count (symbols : SymbolTable) (address : Nat) (s : Statement) :
    Except Diagnostic Nat :=
  match s.body with
  | none => .ok 0
  | some b => b.count symbols address

/-- A count that is found is found in every table that knows more. -/
theorem Body.count_mono {t t' : SymbolTable} (h : t.Extends t') {a k : Nat} {b : Body}
    (hk : b.count t a = .ok k) : b.count t' a = .ok k := by
  cases b with
  | origin n =>
      obtain ⟨v, hv, hlow, hhigh, rfl⟩ := gap_eq_ok hk
      have hreach : ¬ (v.toInt < a ∨ (addressSpace : Int) ≤ v.toInt) := by omega
      simp only [count, gap, Node.numberIn_mono h hv, if_neg hreach, Except.ok.injEq]
      omega
  | reserve n =>
      obtain ⟨v, hv, hlow, hhigh, rfl⟩ := reservation_eq_ok hk
      have hrange : 0 ≤ v.toInt ∧ v.toInt < addressSpace := ⟨hlow, hhigh⟩
      simp only [count, reservation, Node.numberIn_mono h hv, if_pos hrange]
  | _ => exact hk

/-! ### Code -/

/-- A list of values moves by its length, whatever is wrong with the values. -/
theorem reports_encodeValues {bits k : Nat} {toBytes : UInt16 → List UInt8}
    (htoBytes : ∀ w, (toBytes w).length = k) (span : Span) {p : Place}
    (hp : p.address < 0x100000000) (values : List Node) :
    (encodeValues symbols bits toBytes span p values).Reports p (k * values.length)
      (values.filterMap (operandError? symbols bits)) := by
  induction values generalizing p with
  | nil => exact .nothing hp
  | cons n ns ih =>
      unfold encodeValues
      dsimp only
      have hput := Output.Reports.ofBytes p (toBytes (orReport 0 (immediate symbols bits n)).1) span
      rw [htoBytes] at hput
      have hhead := hput.reporting (operandError? symbols bits n).toList fun d hd =>
        (isError_of_operandError? (Option.mem_toList.mp hd)).2
      rw [← reports_immediate, List.append_nil] at hhead
      have hsum : k * (ns.length + 1) = k + k * ns.length := by
        rw [Nat.mul_add, Nat.mul_one, Nat.add_comm]
      have hcons : (n :: ns).filterMap (operandError? symbols bits) =
          (orReport 0 (immediate symbols bits n)).2 ++
            ns.filterMap (operandError? symbols bits) := by
        rw [reports_immediate, List.filterMap_cons]
        cases operandError? symbols bits n <;> rfl
      rw [List.length_cons, hsum, hcons]
      refine hhead.andThen (ih ?_)
      rw [hhead.address]
      exact Nat.mod_lt _ (by decide)

theorem reports_encodeZeros (p : Place) {k : Nat} (hk : k ≤ addressSpace) (span : Span) :
    (encodeZeros p (.ok k) span).Reports p k [] := by
  have hput := Output.Reports.ofBytes p (List.replicate (min k addressSpace) 0) span
  rw [List.length_replicate, Nat.min_eq_left hk] at hput
  simpa only [encodeZeros, Output.zeros, Nat.min_eq_left hk] using hput

theorem cause_of_mem_alignment {address : Nat} {span : Span} {d : Diagnostic}
    (h : d ∈ Asm.alignment address span) : d.isError = false ∧ d.cause ≠ .overflow := by
  unfold Asm.alignment at h
  split at h
  · cases h
  · rw [List.mem_singleton] at h
    subst h
    exact ⟨rfl, by simp⟩

theorem reports_instruction (form : Form) (operands : List Node) (span : Span) (p : Place) :
    (encodeBody symbols span p (.instruction form operands)).Reports p 2
      (Asm.alignment p.address span ++ (Body.instruction form operands).immediates.filterMap
        fun (bits, n) => operandError? symbols bits n) := by
  have hbad : (instructionWord symbols form operands).2 =
      (Body.instruction form operands).immediates.filterMap
        fun (bits, n) => operandError? symbols bits n :=
    reports_slotValues symbols form.signature operands
  have hput := Output.Reports.ofBytes p (wordBytes (instructionWord symbols form operands).1) span
  rw [← hbad]
  have hreports := hput.reporting
    (Asm.alignment p.address span ++ (instructionWord symbols form operands).2) fun d hd => ?_
  · rwa [List.append_nil] at hreports
  · rcases List.mem_append.mp hd with hd | hd
    · exact (cause_of_mem_alignment hd).2
    · rw [hbad] at hd
      obtain ⟨x, -, hx⟩ := List.mem_filterMap.mp hd
      exact (isError_of_operandError? hx).2

/-- **A statement is reported on its own**: if it is known how many bytes it asks for, the second pass
moves by these, and finds its address odd and its operands bad. -/
theorem reports_encodeStatement {p : Place} (hp : p.address < 0x100000000) {s : Statement} {k : Nat}
    (hk : s.count symbols p.address = .ok k) :
    (encodeStatement symbols p s).Reports p k
      (s.alignment p.address ++ s.badOperands symbols) := by
  unfold Statement.count at hk
  unfold encodeStatement Statement.alignment Statement.badOperands Statement.immediates
  cases hbody : s.body with
  | none =>
      rw [hbody] at hk
      cases hk
      exact .nothing hp
  | some b =>
      rw [hbody] at hk
      simp only [Option.toList_some, List.flatMap_cons, List.flatMap_nil, List.append_nil]
      cases b with
      | instruction form operands =>
          cases hk
          exact reports_instruction form operands s.span p
      | constant name value =>
          cases hk
          exact .nothing hp
      | origin n =>
          have hgap : gap symbols p.address n = .ok k := hk
          obtain ⟨v, -, -, hhigh, hle⟩ := gap_eq_ok hgap
          rw [encodeBody, hgap]
          exact reports_encodeZeros p (by omega) n.span
      | bytes values =>
          cases hk
          simp only [Body.immediates, List.filterMap_map, List.nil_append]
          have hlength : ∀ w : UInt16, [w.toUInt8].length = 1 := fun _ => rfl
          rw [← Nat.one_mul values.length]
          exact reports_encodeValues hlength s.span hp values
      | words values =>
          cases hk
          simp only [Body.immediates, List.filterMap_map, List.nil_append]
          exact reports_encodeValues length_wordBytes s.span hp values
      | reserve n =>
          have hcount : reservation symbols n = .ok k := hk
          obtain ⟨v, -, -, hhigh, hle⟩ := reservation_eq_ok hcount
          rw [encodeBody, hcount]
          exact reports_encodeZeros p (by omega) s.span

/-- The errors in the report of a statement are those of its operands. -/
theorem errors_of_statement (a : Nat) (s : Statement) :
    (s.alignment a ++ s.badOperands symbols).filter Diagnostic.isError = s.badOperands symbols := by
  have halignment : (s.alignment a).filter Diagnostic.isError = [] := by
    rw [List.filter_eq_nil_iff]
    intro d hd
    unfold Statement.alignment at hd
    split at hd
    · simp [(cause_of_mem_alignment hd).1]
    · cases hd
  have hbad : (s.badOperands symbols).filter Diagnostic.isError = s.badOperands symbols := by
    rw [List.filter_eq_self]
    exact fun d hd => (isError_of_mem_badOperands hd).1
  rw [List.filter_append, halignment, hbad, List.nil_append]

/-- Code without an error is of a statement of which it is known how many bytes it asks for. -/
theorem count_of_noErrors {a : Nat} {s : Statement}
    (h : hasErrors (encodeStatement symbols ⟨a, false⟩ s).diagnostics = false) :
    ∃ k, s.count symbols a = .ok k := by
  have hzeros : ∀ {count : Except Diagnostic Nat} {span : Span}, Refuses count →
      hasErrors (encodeZeros ⟨a, false⟩ count span).diagnostics = false → ∃ k, count = .ok k := by
    intro count span hcount h
    cases count with
    | ok k => exact ⟨k, rfl⟩
    | error d => simp [encodeZeros, hasErrors, hcount d rfl] at h
  unfold encodeStatement at h
  unfold Statement.count
  cases hbody : s.body with
  | none => exact ⟨0, rfl⟩
  | some b =>
      rw [hbody] at h
      cases b with
      | origin n => exact hzeros (refuses_gap symbols a n) h
      | reserve n => exact hzeros (refuses_reservation symbols n) h
      | _ => exact ⟨_, rfl⟩

/-! ### The first pass -/

namespace Layout

variable {l : Layout} {a : Nat}

theorem advance_of_noErrors (hl : l.place = ⟨a, false⟩) {k : Nat} {span : Span}
    (h : hasErrors (l.advance k span).2 = false) :
    (l.advance k span).1.place = ⟨(a + k) % 0x100000000, false⟩ ∧
      (a + k) % 0x100000000 ≤ addressSpace := by
  unfold advance at h ⊢
  rw [hl] at h ⊢
  obtain ⟨hadvance, hle⟩ := Place.advance_of_noErrors h
  exact ⟨by rw [hadvance], hle⟩

theorem advanceBy_of_noErrors (hl : l.place = ⟨a, false⟩) {count : Except Diagnostic Nat}
    (hcount : Refuses count) {span : Span} (h : hasErrors (l.advanceBy count span).2 = false) :
    ∃ k, count = .ok k ∧ (l.advanceBy count span).1.place = ⟨(a + k) % 0x100000000, false⟩ ∧
      (a + k) % 0x100000000 ≤ addressSpace := by
  unfold advanceBy at h ⊢
  cases count with
  | error d => simp [hasErrors, hcount d rfl] at h
  | ok k => exact ⟨k, rfl, advance_of_noErrors hl h⟩

/-- The first pass moves over a body without an error by what this asks for. -/
theorem count_of_body (hl : l.place = ⟨a, false⟩) (ha : a ≤ addressSpace) {span : Span} {b : Body}
    (h : hasErrors (l.body span b).2 = false) :
    ∃ k, b.count l.symbols a = .ok k ∧
      (l.body span b).1.place = ⟨(a + k) % 0x100000000, false⟩ ∧
      (a + k) % 0x100000000 ≤ addressSpace := by
  have hspace : addressSpace = 0x10000 := rfl
  cases b with
  | constant name value =>
      refine ⟨0, rfl, ?_, by omega⟩
      rw [Nat.add_zero, Nat.mod_eq_of_lt (by omega), ← hl]
      show (l.constant name value).1.place = _
      unfold constant
      split
      · exact (extends_define name _).2.2
      · rfl
      · rfl
  | origin n =>
      have hplace : l.place.address = a := by rw [hl]
      have hgap := advanceBy_of_noErrors hl (refuses_gap l.symbols l.place.address n) h
      simpa only [Body.count, hplace, body] using hgap
  | reserve n => exact advanceBy_of_noErrors hl (refuses_reservation l.symbols n) h
  | _ => exact ⟨_, rfl, advance_of_noErrors hl h⟩

/-- **The first pass moves over a statement without an error** by what this asks for in every table
that knows more. -/
theorem count_of_statement (hl : l.place = ⟨a, false⟩) (ha : a ≤ addressSpace) {s : Statement}
    (h : hasErrors (l.statement s).2 = false) {final : SymbolTable}
    (hfinal : (l.statement s).1.symbols.Extends final) :
    ∃ k, s.count final a = .ok k ∧
      (l.statement s).1.place = ⟨(a + k) % 0x100000000, false⟩ ∧
      (a + k) % 0x100000000 ≤ addressSpace := by
  have hspace : addressSpace = 0x10000 := rfl
  obtain ⟨m, hm, hnone, hsome⟩ := statement_of_noErrors h
  have hplace : m.place = ⟨a, false⟩ := hm.place.trans hl
  unfold Statement.count
  cases hbody : s.body with
  | none =>
      refine ⟨0, rfl, ?_, by omega⟩
      rw [hnone hbody, hplace, Nat.add_zero, Nat.mod_eq_of_lt (by omega)]
  | some b =>
      obtain ⟨hstatement, hok⟩ := hsome b hbody
      rw [hstatement] at hfinal ⊢
      obtain ⟨k, hk, hmoves⟩ := count_of_body hplace ha hok
      exact ⟨k, Body.count_mono ((extends_body s.span b).1.trans hfinal) hk, hmoves⟩

/-! All that the first pass reports are errors. -/

theorem isError_define (name : Label) (value : Int64) :
    ∀ d ∈ (l.define name value).2, d.isError = true := by
  unfold define
  split
  · exact fun d hd => by cases hd
  · exact fun d hd => List.mem_singleton.mp hd ▸ rfl

theorem isError_advance (k : Nat) (span : Span) :
    ∀ d ∈ (l.advance k span).2, d.isError = true := by
  unfold advance Place.advance
  dsimp only
  split
  · exact fun d hd => List.mem_singleton.mp hd ▸ rfl
  · exact fun d hd => by cases hd

theorem isError_advanceBy {count : Except Diagnostic Nat} (hcount : Refuses count) (span : Span) :
    ∀ d ∈ (l.advanceBy count span).2, d.isError = true := by
  unfold advanceBy
  cases count with
  | ok k => exact isError_advance k span
  | error e => exact fun d hd => List.mem_singleton.mp hd ▸ hcount e rfl

theorem isError_body (span : Span) (b : Body) : ∀ d ∈ (l.body span b).2, d.isError = true := by
  cases b with
  | constant name value =>
      show ∀ d ∈ (l.constant name value).2, d.isError = true
      unfold constant
      split
      · exact isError_define name _
      · exact fun d hd => List.mem_singleton.mp hd ▸ rfl
      · exact fun d hd => List.mem_singleton.mp hd ▸ rfl
  | origin n => exact isError_advanceBy (refuses_gap l.symbols l.place.address n) n.span
  | reserve n => exact isError_advanceBy (refuses_reservation l.symbols n) span
  | _ => exact isError_advance _ span

theorem isError_statement (s : Statement) : ∀ d ∈ (l.statement s).2, d.isError = true := by
  unfold statement
  intro d hd
  rcases List.mem_append.mp hd with hd | hd
  · cases hlabel : s.label with
    | none =>
        rw [hlabel] at hd
        cases hd
    | some label =>
        rw [hlabel] at hd
        exact isError_define label _ d hd
  · cases hbody : s.body with
    | none =>
        rw [hbody] at hd
        cases hd
    | some b =>
        rw [hbody] at hd
        exact isError_body s.span b d hd

theorem isError_statements (ss : List Statement) :
    ∀ d ∈ (l.statements ss).2, d.isError = true := by
  induction ss generalizing l with
  | nil => exact fun d hd => by cases hd
  | cons s ss ih =>
      intro d hd
      rcases List.mem_append.mp hd with hd | hd
      · exact isError_statement s d hd
      · exact ih d hd

end Layout

/-- Of reports that are errors there are none if there is no error. -/
theorem eq_nil_of_noErrors {ds : List Diagnostic} (hall : ∀ d ∈ ds, d.isError = true)
    (h : hasErrors ds = false) : ds = [] := by
  cases ds with
  | nil => rfl
  | cons d ds => simp [hasErrors, hall d List.mem_cons_self] at h

end Chip8.Asm
