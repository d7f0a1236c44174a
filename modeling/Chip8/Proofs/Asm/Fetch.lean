import Chip8.Proofs.Asm.Agreement
import Chip8.Proofs.Asm.Encoding
import Chip8.Proofs.Machine.Memory

/-! # From source to fetch

What the machine reads at the address of an instruction statement.

* **Values.** `Fills` says which number an operand stands for in a slot; `slotValues_of_noErrors`
  shows that the values without an error are those, and that they fit.
* **Code.** `placed_instruction`: the bytes of an instruction statement are a word that is decoded
  to the instruction of the statement (`Carries`).
* **Fetch.** `fetch_of_assemble`: the word is still there behind the load of the program. -/

namespace Chip8.Asm

variable {symbols : SymbolTable}

/-! ### Values -/

/-- The number that an operand stands for: that of a register, or the value of an expression as a
word that is as wide as the shape demands. -/
structure Fills (symbols : SymbolTable) (shape : Shape) (n : Node) (value : Nat) : Prop where
  register : ∀ r span, n = .register r span → value = r.toNat
  keyword : ∀ k span, n = .keyword k span → value = 0
  immediate : ∀ bits, shape.bits = some bits → ∃ v, n.numberIn symbols = .ok v ∧
    -(wordCount (bits - 1) : Int) ≤ v.toInt ∧ v.toInt < wordCount bits ∧
    (value : Int) = v.toInt % wordCount bits

theorem fit?_eq_some {value : Int64} {bits : Nat} (hbits : bits ≤ 16) {w : UInt16}
    (h : fit? value bits = some w) :
    -(wordCount (bits - 1) : Int) ≤ value.toInt ∧ value.toInt < wordCount bits ∧
      (w.toNat : Int) = value.toInt % wordCount bits ∧ w.toNat < wordCount bits := by
  unfold fit? at h
  dsimp only at h
  split at h
  · rename_i hrange
    cases h
    have hle : wordCount bits ≤ 2 ^ 16 := Nat.pow_le_pow_right (by decide) hbits
    have hpos : 0 < wordCount bits := Nat.two_pow_pos bits
    have hnonneg : 0 ≤ value.toInt % wordCount bits := Int.emod_nonneg _ (by omega)
    have hlt : value.toInt % wordCount bits < wordCount bits := Int.emod_lt_of_pos _ (by omega)
    have hword : (UInt16.ofInt (value.toInt % wordCount bits)).toNat =
        (value.toInt % wordCount bits).toNat := by
      rw [UInt16.ofInt, UInt16.toNat_ofNat']
      omega
    rw [hword]
    exact ⟨hrange.1, hrange.2, by omega, by omega⟩
  · cases h

theorem bits_le {shape : Shape} {bits : Nat} (h : shape.bits = some bits) :
    bits ≤ 16 ∧ shape.limit = wordCount bits := by
  cases shape <;> cases h <;> exact ⟨by decide, rfl⟩

/-- A number in an immediate slot is a word as wide as the slot. -/
theorem immediate_eq_ok {shape : Shape} {bits : Nat} (hbits : shape.bits = some bits) {n : Node}
    {v : UInt16} (h : immediate symbols bits n = .ok v) :
    v.toNat < shape.limit ∧ Fills symbols shape n v.toNat := by
  obtain ⟨hle, hlimit⟩ := bits_le hbits
  unfold immediate at h
  split at h
  · cases h
  · rename_i value hvalue
    split at h
    · rename_i w hw
      cases h
      obtain ⟨hlow, hhigh, hmod, hlt⟩ := fit?_eq_some hle hw
      rw [hlimit]
      refine ⟨hlt, fun r span hn => ?_, fun k span hn => ?_, fun b hb => ?_⟩
      · rw [hn] at hvalue
        cases hvalue
      · rw [hn] at hvalue
        cases hvalue
      · cases hb.symm.trans hbits
        exact ⟨value, hvalue, hlow, hhigh, hmod⟩
    · cases h

theorem fills_register {shape : Shape} (hbits : shape.bits = none) (r : UInt8) (span : Span) :
    Fills symbols shape (.register r span) r.toNat := by
  refine ⟨fun r' span' hn => ?_, fun k span' hn => ?_, fun b hb => ?_⟩
  · cases hn
    rfl
  · cases hn
  · cases hbits.symm.trans hb

theorem fills_keyword {shape : Shape} (hbits : shape.bits = none) (k : Keyword) (span : Span) :
    Fills symbols shape (.keyword k span) 0 := by
  refine ⟨fun r span' hn => ?_, fun k' span' hn => rfl, fun b hb => ?_⟩
  · cases hn
  · cases hbits.symm.trans hb

/-- What is put into a slot fits into it, and is what the operand stands for. -/
theorem slotValue_eq_ok {shape : Shape} {n : Node} (haccepts : shape.accepts n = true)
    (hregister : ∀ r span, n = .register r span → r.toNat < 16) {v : UInt16}
    (h : slotValue symbols shape n = .ok v) :
    v.toNat < shape.limit ∧ Fills symbols shape n v.toNat := by
  unfold slotValue at h
  cases shape with
  | register =>
      cases n with
      | register r span =>
          cases h
          exact ⟨hregister r span rfl, fills_register rfl r span⟩
      | _ => cases haccepts
  | registerZero =>
      cases n with
      | register r span =>
          cases h
          obtain rfl : r = 0 := of_decide_eq_true haccepts
          exact ⟨Nat.one_pos, fills_register rfl 0 span⟩
      | _ => cases haccepts
  | word k =>
      cases n with
      | keyword k' span =>
          cases h
          exact ⟨Nat.one_pos, fills_keyword rfl k' span⟩
      | _ => cases haccepts
  | nibble => exact immediate_eq_ok rfl h
  | byte => exact immediate_eq_ok rfl h
  | address => exact immediate_eq_ok rfl h

theorem refuses_immediate (symbols : SymbolTable) (bits : Nat) (n : Node) :
    Refuses (immediate symbols bits n) := by
  unfold immediate
  split
  · exact .error rfl
  · split
    · exact .ok _
    · exact .error rfl

theorem refuses_slotValue (symbols : SymbolTable) (shape : Shape) (n : Node) :
    Refuses (slotValue symbols shape n) := by
  unfold slotValue
  split
  · exact refuses_immediate symbols _ n
  · split
    · exact .ok _
    · exact .ok _

theorem orReport_of_noErrors {α : Type} {default : α} {r : Except Diagnostic α} (hr : Refuses r)
    (h : hasErrors (orReport default r).2 = false) :
    ∃ a, r = .ok a ∧ orReport default r = (a, []) := by
  cases r with
  | ok a => exact ⟨a, rfl, rfl⟩
  | error d => simp [orReport, hasErrors, hr d rfl] at h

/-- The values without an error fit into their slots, and are what the operands stand for. -/
theorem slotValues_of_noErrors {slots : List Slot} {operands : List Node}
    (hlength : slots.length = operands.length)
    (haccepts : ∀ s ∈ slots.zip operands, s.1.shape.accepts s.2 = true)
    (hregister : ∀ r span, Node.register r span ∈ operands → r.toNat < 16)
    (h : hasErrors (slotValues symbols (slots.map Slot.shape) operands).2 = false) :
    ∃ values, slotValues symbols (slots.map Slot.shape) operands = (values, []) ∧
      List.Forall₂ (fun s v => v.toNat < s.shape.limit) slots values ∧
      List.Forall₂ (fun s v => Fills symbols s.1.shape s.2 v) (slots.zip operands)
        (values.map UInt16.toNat) := by
  induction slots generalizing operands with
  | nil => exact ⟨[], rfl, .nil, .nil⟩
  | cons slot slots ih =>
      cases operands with
      | nil => cases hlength
      | cons n ns =>
          rw [List.map_cons, slotValues] at h ⊢
          dsimp only at h ⊢
          rw [hasErrors_append, Bool.or_eq_false_iff] at h
          obtain ⟨v, hv, hreport⟩ := orReport_of_noErrors (refuses_slotValue symbols slot.shape n) h.1
          obtain ⟨values, hvalues, hfits, hfills⟩ := ih (Nat.succ.inj hlength)
            (fun s hs => haccepts s (List.mem_cons_of_mem _ hs))
            (fun r span hr => hregister r span (List.mem_cons_of_mem _ hr)) h.2
          obtain ⟨hlimit, hfill⟩ := slotValue_eq_ok (haccepts (slot, n) (List.mem_cons_self ..))
            (fun r span hn => hregister r span (hn ▸ List.mem_cons_self ..)) hv
          refine ⟨v :: values, ?_, .cons hlimit hfits, .cons hfill hfills⟩
          rw [hreport, hvalues]
          rfl

/-! ### Code -/

/-- An instruction has the mnemonic of a form and, in its fields, what the operands stand for. -/
structure Carries (symbols : SymbolTable) (form : Form) (operands : List Node) (i : Instruction) :
    Prop where
  mnemonic : i.mnemonic = form.mnemonic
  operands : ∃ values, List.Forall₂ (fun s v => Fills symbols s.1.shape s.2 v)
    (form.slots.zip operands) values ∧ i.operands = form.contents values

/-- The word of an instruction without an error is decoded to the instruction. -/
theorem carries_instructionWord {form : Form} {operands : List Node}
    (hselected : Selected form operands)
    (h : hasErrors (instructionWord symbols form operands).2 = false) :
    ∃ i, Instruction.decode (instructionWord symbols form operands).1 = some i ∧
      Carries symbols form operands i := by
  obtain ⟨hlength, haccepts⟩ := Form.accepts_iff.mp hselected.accepts
  obtain ⟨values, hvalues, hfits, hfills⟩ :=
    slotValues_of_noErrors hlength haccepts hselected.register_lt h
  obtain ⟨i, hi, hmnemonic, hoperands⟩ := decodes_of_mem hselected.form_mem values hfits
  have hword : (instructionWord symbols form operands).1 = form.encode values := by
    rw [instructionWord, Form.signature, hvalues]
    rfl
  rw [hword]
  exact ⟨i, hi, hmnemonic, _, hfills, hoperands⟩

/-- The code of an instruction statement is the word of its instruction. -/
theorem placed_instruction {a : Nat} (ha : a ≤ addressSpace) {s : Statement} {code : List UInt8}
    (hplaced : Placed symbols a s code) {form : Form} {operands : List Node}
    (hbody : s.body = some (.instruction form operands)) (hselected : Selected form operands) :
    ∃ w i, code = wordBytes w ∧ Instruction.decode w = some i ∧
      Carries symbols form operands i := by
  have hcode := hplaced.code_eq
  have hok := hplaced.noErrors
  unfold encodeStatement at hcode hok
  rw [hbody] at hcode hok
  unfold encodeBody Output.reporting at hcode hok
  dsimp only at hcode hok
  rw [hasErrors_append, hasErrors_append, Bool.or_eq_false_iff, Bool.or_eq_false_iff] at hok
  obtain ⟨i, hi, hcarries⟩ := carries_instructionWord hselected hok.1.2
  have hshort : (wordBytes (instructionWord symbols form operands).1).length ≤ addressSpace := by
    rw [length_wordBytes]
    decide
  rw [(Output.ofBytes_of_noErrors ha hshort hok.2).1] at hcode
  exact ⟨_, i, hcode, hi, hcarries⟩

/-! ### Fetch -/

theorem word_of_wordBytes (w : UInt16) :
    (w >>> 8).toUInt8.toUInt16 * 0x100 + w.toUInt8.toUInt16 = w := by
  apply UInt16.toNat_inj.mp
  have hw := w.toNat_lt
  have hhigh : (w >>> 8).toNat = w.toNat / 0x100 := by
    rw [UInt16.toNat_shiftRight, Nat.shiftRight_eq_div_pow]
    rfl
  rw [UInt16.toNat_add, UInt16.toNat_mul, UInt8.toNat_toUInt16, UInt8.toNat_toUInt16,
    UInt16.toNat_toUInt8, UInt16.toNat_toUInt8, hhigh]
  show (w.toNat / 0x100 % 0x100 * 0x100 % 0x10000 + w.toNat % 0x100) % 0x10000 = w.toNat
  omega

/-- The word behind some of the bytes of a program is the one that is fetched at its place. -/
theorem word_of_load {m m' : Memory} {origin a w : UInt16} {before after : List UInt8}
    (hload : m.load origin (before ++ wordBytes w ++ after) = .ok m')
    (ha : a.toNat = origin.toNat + before.length) : m'.word a = w := by
  unfold Memory.load at hload
  split at hload
  · cases hload
  · rename_i hfits
    cases hload
    have hhigh : (before ++ wordBytes w ++ after)[before.length]? = some (w >>> 8).toUInt8 := by
      simp [wordBytes]
    have hlow : (before ++ wordBytes w ++ after)[before.length + 1]? = some w.toUInt8 := by
      simp [wordBytes]
    rw [Memory.word_store (Nat.le_of_not_lt hfits) hhigh hlow ha]
    exact word_of_wordBytes w

/-- **Source to fetch**: when the program is in a memory, the word at the address of every
instruction statement is an instruction with the mnemonic and the operands of the statement. -/
theorem fetch_of_assemble {source : String} {origin : UInt16} {p : Program}
    (h : assemble source origin = .ok p) {m : Memory}
    (hm : origin.toNat + p.bytes.length ≤ m.size) :
    ∃ m', m.load origin p.bytes = .ok m' ∧
      ∀ i s form operands, (parse source).statements[i]? = some s →
        s.body = some (.instruction form operands) →
        Selected form operands ∧
        ∃ a : UInt16, ∃ instruction,
          addressAt? p.symbols origin.toNat (parse source).statements i = some a.toNat ∧
          Instruction.decode (m'.word a) = some instruction ∧
          Carries p.symbols form operands instruction := by
  have hp := agreement_of_assemble h
  have hload : m.load origin p.bytes = .ok (m.store origin.toNat p.bytes) := by
    rw [Memory.load, if_neg (by omega)]
  refine ⟨_, hload, fun i s form operands hs hbody => ?_⟩
  have hselected : Selected form operands :=
    wellFormed_of_parse hp.parsed (List.mem_of_getElem? hs) hbody
  obtain ⟨before, code, after, hbytes, haddress, _, hplaced⟩ := hp.agreement.statement hs
  have hfits := hp.agreement.fits
  rw [hbytes, List.length_append, List.length_append] at hfits
  obtain ⟨w, instruction, hcode, hdecode, hcarries⟩ :=
    placed_instruction (by omega) hplaced hbody hselected
  have hspace : addressSpace = 0x10000 := rfl
  have hlength : code.length = 2 := by rw [hcode, length_wordBytes]
  have ha : (UInt16.ofNat (origin.toNat + before.length)).toNat = origin.toNat + before.length := by
    rw [UInt16.toNat_ofNat']
    omega
  refine ⟨hselected, UInt16.ofNat (origin.toNat + before.length), instruction, ?_, ?_, hcarries⟩
  · rw [ha]
    exact haddress
  · rw [hbytes, hcode] at hload ⊢
    rw [word_of_load hload ha]
    exact hdecode

theorem fetch_of_assemble_gapSource :
    ∃ p m', assemble gapSource 0x200 = .ok p ∧ (Memory.blank 0x1000).load 0x200 p.bytes = .ok m' ∧
      ∀ i s form operands, (parse gapSource).statements[i]? = some s →
        s.body = some (.instruction form operands) →
        Selected form operands ∧
        ∃ a : UInt16, ∃ instruction,
          addressAt? p.symbols (0x200 : UInt16).toNat (parse gapSource).statements i =
            some a.toNat ∧
          Instruction.decode (m'.word a) = some instruction ∧
          Carries p.symbols form operands instruction := by
  cases h : assemble gapSource 0x200 with
  | ok p =>
      have hlength : (match assemble gapSource 0x200 with
          | .ok p => p.bytes.length
          | .error _ => 0) = 9 := by decide +kernel
      rw [h] at hlength
      have hbytes : p.bytes.length = 9 := hlength
      obtain ⟨m', hload, hfetch⟩ := fetch_of_assemble h (m := Memory.blank 0x1000) (by
        rw [Memory.size_blank, hbytes]
        decide)
      exact ⟨p, m', rfl, hload, hfetch⟩
  | error ds =>
      have hok : (assemble gapSource 0x200).toBool = true := by decide +kernel
      rw [h] at hok
      cases hok

end Chip8.Asm
