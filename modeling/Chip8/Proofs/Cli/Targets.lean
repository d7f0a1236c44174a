import Chip8.Cli.Target
import Chip8.Proofs.Asm.Agreement
import Chip8.Proofs.Asm.Tokens
import Chip8.Proofs.Text.Positional

/-! # Where breakpoint targets lead

What a target stands for, as an integer of any size, and the address that is made of it.

* `Means` is the number that a target spells or the value of the symbol that it names. It is one
  integer at most (`Means.unique`), since names do not begin like numbers and a program declares no
  name twice.
* `resolveTarget_number`, `resolveTarget_symbol` and `resolveTarget_nothing` say what becomes of a
  target in each case. A number that does not fit an address is refused, a symbol that does not is
  cut to 16 bits.
* `target_exact` puts them together: `Exact` is the law that a target leads to the address that it
  stands for or nowhere, and it holds exactly of the targets that name no symbol with a value
  outside of the address space. Of the labels only one behind the last address has such a value. -/

namespace Chip8.Cli

open Numeral (Spells wordMax)

/-! ### Meanings -/

/-- The program has a symbol of this name and value. -/
def Names (program : Option Asm.Program) (target : String) (v : Int) : Prop :=
  ∃ p ∈ program, ∃ s ∈ p.symbols.symbols,
    s.name.chars = target.toList ∧ ∃ value ∈ s.value, v = value.toInt

/-- What a target stands for: the number that it spells, or the value of the symbol of this name. -/
def Means (program : Option Asm.Program) (target : String) (v : Int) : Prop :=
  (∃ n : Nat, Spells target.toList n ∧ v = n) ∨ Names program target v

/-- What a target stands for is where it leads. If this is no address, the target is refused. -/
structure Exact (program : Option Asm.Program) (target : String) : Prop where
  sound : ∀ b, resolveTarget program target = .ok b →
    b.temporary = false ∧ Means program target b.address.toNat
  refused : ∀ v, Means program target v → ¬ (0 ≤ v ∧ v < Asm.addressSpace) →
    ∃ e, resolveTarget program target = .error e

/-- No program, or one that was assembled. -/
def FromSource (program : Option Asm.Program) : Prop :=
  ∀ p ∈ program, ∃ source origin, Asm.assemble source origin = .ok p

variable {program : Option Asm.Program} {target : String} {v w : Int} {n : Nat}

/-! ### Names -/

/-- A program declares no name twice. -/
theorem FromSource.nodup (h : FromSource program) {p : Asm.Program} (hp : p ∈ program) :
    p.symbols.names.Nodup := by
  obtain ⟨source, origin, hassemble⟩ := h p hp
  have hassembled := Asm.agreement_of_assemble hassemble
  rw [hassembled.names]
  exact (Asm.names_parse hassembled.parsed).1

theorem valueOf?_eq_some_iff {t : Asm.SymbolTable} (hnodup : t.names.Nodup) {cs : List Char}
    {value : Int64} :
    valueOf? t cs = some value ↔ ∃ s ∈ t.symbols, s.name.chars = cs ∧ value ∈ s.value := by
  simp only [valueOf?, Option.bind_eq_some_iff, Asm.SymbolTable.get?_eq_some_iff hnodup]
  constructor
  · rintro ⟨i, hi, s, ⟨hs, rfl⟩, hvalue⟩
    exact ⟨s, hs, Asm.Identifier.chars_of_ofChars? hi, hvalue⟩
  · rintro ⟨s, hs, rfl, hvalue⟩
    exact ⟨s.name, Asm.Identifier.ofChars?_chars s.name, s, ⟨hs, rfl⟩, hvalue⟩

/-- A name does not begin as a number does. -/
theorem isNameStart_of_number {c : Char} (h : c = '+' ∨ c.isDigit = true) :
    Asm.isNameStart c = false := by
  rcases h with rfl | hdigit
  · decide
  · rw [← Bool.not_eq_true]
    intro hstart
    rw [Asm.isDigit_of_isNameStart hstart] at hdigit
    cases hdigit

theorem not_identifier_of_spells (h : Spells target.toList n) :
    Asm.Identifier.ofChars? target.toList = none := by
  obtain ⟨c, rest, hcs, hc⟩ := h.head
  have hno : Asm.isIdentifier target.toList = false := by
    rw [hcs, Asm.isIdentifier, isNameStart_of_number hc, Bool.false_and]
  unfold Asm.Identifier.ofChars?
  rw [dif_neg (by simp [hno])]

theorem not_names_of_spells (h : Spells target.toList n) : ¬ Names program target v := by
  rintro ⟨p, -, s, -, hname, -⟩
  have hnone := not_identifier_of_spells h
  rw [← hname, Asm.Identifier.ofChars?_chars] at hnone
  cases hnone

theorem Names.unique (hprogram : FromSource program) (h : Names program target v)
    (h' : Names program target w) : v = w := by
  obtain ⟨p, hp, s, hs, hname, value, hvalue, rfl⟩ := h
  obtain ⟨q, hq, u, hu, hname', value', hvalue', rfl⟩ := h'
  obtain rfl := Option.mem_unique hp hq
  have hnodup := hprogram.nodup hp
  have hone := (valueOf?_eq_some_iff hnodup).mpr ⟨s, hs, hname, hvalue⟩
  rw [(valueOf?_eq_some_iff hnodup).mpr ⟨u, hu, hname', hvalue'⟩] at hone
  cases hone
  rfl

/-- A target stands for one integer at most. -/
theorem Means.unique (hprogram : FromSource program) (h : Means program target v)
    (h' : Means program target w) : v = w := by
  rcases h with ⟨n, hn, rfl⟩ | h
  · rcases h' with ⟨m, hm, rfl⟩ | h'
    · rw [hn.unique hm]
    · exact absurd h' (not_names_of_spells hn)
  · rcases h' with ⟨m, hm, rfl⟩ | h'
    · exact absurd h (not_names_of_spells hm)
    · exact h.unique hprogram h'

/-! ### Addresses -/

/-- What becomes of a target that spells a number. -/
theorem resolveTarget_number (h : Spells target.toList n) :
    resolveTarget program target =
      if n < Asm.addressSpace then .ok ⟨n.toUInt16, false⟩
      else if n ≤ wordMax then .error (.tooLarge target)
      else if program.isSome then .error (.unknownLabel target)
      else .error (.noSource target) := by
  have hword : Asm.addressSpace ≤ wordMax := by decide
  unfold resolveTarget
  by_cases hn : n ≤ wordMax
  · rw [Numeral.ofUser?_eq_some_iff.mpr ⟨h, hn⟩, if_pos hn]
    rfl
  · have hnone : Numeral.ofUser? target.toList = none :=
      Numeral.ofUser?_eq_none fun m hm => h.unique hm ▸ Nat.lt_of_not_le hn
    rw [hnone, if_neg (by omega), if_neg hn]
    cases program with
    | none => rfl
    | some p =>
        have hvalue : valueOf? p.symbols target.toList = none := by
          rw [valueOf?, not_identifier_of_spells h]
          rfl
        simp only [hvalue, Option.isSome_some, if_true]

theorem FromSource.of_assemble {source : String} {origin : UInt16} {p : Asm.Program}
    (h : Asm.assemble source origin = .ok p) : FromSource (some p) := by
  rintro q hq
  cases hq
  exact ⟨source, origin, h⟩

/-- What is looked up in the program of a source text are the values of the names. -/
theorem names_of_valueOf? (source : String) (origin : UInt16) (target : String) (value : Int64)
    (h : ((Asm.assemble source origin).toOption.bind fun p =>
      valueOf? p.symbols target.toList) = some value) :
    ∃ p, Asm.assemble source origin = .ok p ∧ Names (some p) target value.toInt := by
  cases hp : Asm.assemble source origin with
  | error ds =>
      rw [hp] at h
      cases h
  | ok p =>
      rw [hp] at h
      have hnodup := (FromSource.of_assemble hp).nodup rfl
      obtain ⟨s, hs, hname, hmem⟩ := (valueOf?_eq_some_iff hnodup).mp h
      exact ⟨p, rfl, p, rfl, s, hs, hname, value, hmem, rfl⟩

/-- What becomes of one that names a symbol. -/
theorem resolveTarget_symbol (hprogram : FromSource program) (h : Names program target v) :
    resolveTarget program target = .ok ⟨UInt16.ofInt v, false⟩ := by
  have hnone : Numeral.ofUser? target.toList = none :=
    Numeral.ofUser?_eq_none fun m hm => absurd h (not_names_of_spells hm)
  obtain ⟨p, hp, s, hs, hname, value, hvalue, rfl⟩ := h
  obtain rfl := Option.mem_def.mp hp
  have hof := (valueOf?_eq_some_iff (hprogram.nodup hp)).mpr ⟨s, hs, hname, hvalue⟩
  unfold resolveTarget
  simp only [hnone, hof]

/-- A target that stands for nothing is refused. -/
theorem resolveTarget_nothing (hprogram : FromSource program) (h : ∀ v, ¬ Means program target v) :
    ∃ e, resolveTarget program target = .error e := by
  have hnone : Numeral.ofUser? target.toList = none :=
    Numeral.ofUser?_eq_none fun m hm => absurd (.inl ⟨m, hm, rfl⟩) (h m)
  unfold resolveTarget
  rw [hnone]
  cases program with
  | none => exact ⟨_, rfl⟩
  | some p =>
      have hvalue : valueOf? p.symbols target.toList = none := by
        rw [Option.eq_none_iff_forall_not_mem]
        intro value hvalue
        obtain ⟨s, hs, hname, hmem⟩ := (valueOf?_eq_some_iff (hprogram.nodup rfl)).mp hvalue
        exact h value.toInt (.inr ⟨p, rfl, s, hs, hname, value, hmem, rfl⟩)
      simp only [hvalue]
      exact ⟨_, rfl⟩

theorem toNat_ofInt (v : Int) : ((UInt16.ofInt v).toNat : Int) = v % Asm.addressSpace := by
  rw [UInt16.ofInt, UInt16.toNat_ofNat']
  simp only [Asm.addressSpace]
  omega

/-! ### Exactness -/

/-- What is refused leads nowhere. -/
theorem exact_of_refused (h : ∃ e, resolveTarget program target = .error e) :
    Exact program target := by
  obtain ⟨e, he⟩ := h
  refine ⟨fun b hb => ?_, fun _ _ _ => ⟨e, he⟩⟩
  rw [he] at hb
  cases hb

theorem refused_of_large (h : Spells target.toList n) (hn : Asm.addressSpace ≤ n) :
    ∃ e, resolveTarget program target = .error e := by
  rw [resolveTarget_number h, if_neg (Nat.not_lt_of_le hn)]
  split
  · exact ⟨_, rfl⟩
  · split <;> exact ⟨_, rfl⟩

/-- A number leads to the address of this number, or is refused. -/
theorem exact_of_spells (h : Spells target.toList n) : Exact program target := by
  by_cases hn : n < Asm.addressSpace
  · constructor
    · intro b hb
      rw [resolveTarget_number h, if_pos hn] at hb
      cases hb
      refine ⟨rfl, .inl ⟨n, h, ?_⟩⟩
      exact congrArg Nat.cast (UInt16.toNat_ofNat_of_lt' hn)
    · rintro v (⟨m, hm, rfl⟩ | hname) hout
      · rw [h.unique hm] at hn
        omega
      · exact absurd hname (not_names_of_spells h)
  · exact exact_of_refused (refused_of_large h (Nat.le_of_not_lt hn))

/-- A name leads to the value of its symbol exactly if this is an address. -/
theorem exact_iff_of_names (hprogram : FromSource program) (h : Names program target v) :
    Exact program target ↔ 0 ≤ v ∧ v < Asm.addressSpace := by
  have hresolve := resolveTarget_symbol hprogram h
  constructor
  · intro hexact
    by_contra hout
    obtain ⟨e, he⟩ := hexact.refused v (.inr h) hout
    rw [hresolve] at he
    cases he
  · rintro ⟨hlow, hhigh⟩
    have haddress := toNat_ofInt v
    rw [Int.emod_eq_of_lt hlow hhigh] at haddress
    constructor
    · intro b hb
      rw [hresolve] at hb
      cases hb
      refine ⟨rfl, .inr ?_⟩
      rwa [haddress]
    · intro w hw hout
      rw [hw.unique hprogram (.inr h)] at hout
      exact absurd ⟨hlow, hhigh⟩ hout

/-- A target leads to what it stands for, modulo the address space. -/
theorem address_of_resolveTarget (hprogram : FromSource program) {b : Breakpoint}
    (h : resolveTarget program target = .ok b) :
    ∃ v, Means program target v ∧ (b.address.toNat : Int) = v % Asm.addressSpace := by
  by_cases hmeans : ∃ v, Means program target v
  · obtain ⟨v, ⟨n, hn, rfl⟩ | hname⟩ := hmeans
    · refine ⟨b.address.toNat, ((exact_of_spells hn).sound b h).2, ?_⟩
      exact (Int.emod_eq_of_lt (by omega) (Int.ofNat_lt.mpr b.address.toNat_lt)).symm
    · rw [resolveTarget_symbol hprogram hname] at h
      cases h
      exact ⟨v, .inr hname, toNat_ofInt v⟩
  · obtain ⟨e, he⟩ := resolveTarget_nothing hprogram fun v hv => hmeans ⟨v, hv⟩
    rw [he] at h
    cases h

/-- What is an address gets its breakpoint. -/
theorem resolves_of_means (hprogram : FromSource program) (h : Means program target v)
    (hlow : 0 ≤ v) (hhigh : v < Asm.addressSpace) :
    ∃ b, resolveTarget program target = .ok b ∧ (b.address.toNat : Int) = v := by
  rcases h with ⟨n, hn, rfl⟩ | hname
  · rw [resolveTarget_number hn, if_pos (Int.ofNat_lt.mp hhigh)]
    exact ⟨_, rfl, congrArg Nat.cast (UInt16.toNat_ofNat_of_lt' (Int.ofNat_lt.mp hhigh))⟩
  · refine ⟨_, resolveTarget_symbol hprogram hname, ?_⟩
    rw [toNat_ofInt, Int.emod_eq_of_lt hlow hhigh]

/-- A label is a symbol whose value lies in the address space or right behind it. -/
theorem names_label {source : String} {origin : UInt16} {p : Asm.Program}
    (h : Asm.assemble source origin = .ok p) {s : Asm.Statement}
    (hs : s ∈ (Asm.parse source).statements) {label : Asm.Label} (hlabel : s.label = some label) :
    ∃ a ≤ Asm.addressSpace, Names (some p) label.name.text a := by
  obtain ⟨-, hlaid⟩ := Asm.assemble_laidOut h
  obtain ⟨i, hi⟩ := List.mem_iff_getElem?.mp hs
  obtain ⟨a, b, -, -, -, hab, hb, hplaced⟩ := hlaid.statements i s hi
  obtain ⟨v, hv, hva⟩ := hplaced.label label hlabel
  have hnodup := (FromSource.of_assemble h).nodup rfl
  obtain ⟨symbol, hsymbol, hname, hvalue⟩ := (Asm.SymbolTable.lookup_eq_value_iff hnodup).mp hv
  refine ⟨a, hab.trans hb, p, rfl, symbol, hsymbol, ?_, v, hvalue, hva.symm⟩
  rw [hname, Asm.Identifier.text, String.toList_ofList]

/-- **Targets.** A target leads to what it stands for or nowhere, unless it names a symbol whose
value is no address: so does every number, however large, and every label but one behind the last
address. Each breakpoint stays, at what its target stands for modulo the address space, and what
stands for an address gets its breakpoint. -/
theorem target_exact (hprogram : FromSource program) (target : String) :
    (Exact program target ↔ ∀ v, Names program target v → 0 ≤ v ∧ v < Asm.addressSpace) ∧
      (∀ n, Spells target.toList n → Exact program target) ∧
      (∀ b, resolveTarget program target = .ok b →
        b.temporary = false ∧ ∃ v, Means program target v ∧
          (b.address.toNat : Int) = v % Asm.addressSpace) ∧
      (∀ v, Means program target v → 0 ≤ v → v < Asm.addressSpace →
        ∃ b, resolveTarget program target = .ok b ∧ (b.address.toNat : Int) = v) ∧
      (∀ source origin p, Asm.assemble source origin = .ok p → program = some p →
        ∀ s ∈ (Asm.parse source).statements, ∀ label ∈ s.label, label.name.text = target →
          ∃ a ≤ Asm.addressSpace, Means program target a ∧
            (Exact program target ↔ a ≠ Asm.addressSpace)) := by
  refine ⟨⟨fun hexact v hname => (exact_iff_of_names hprogram hname).mp hexact, fun hvalues => ?_⟩,
    fun n => exact_of_spells, fun b hb => ⟨temporary_of_resolveTarget hb,
      address_of_resolveTarget hprogram hb⟩, fun v => resolves_of_means hprogram, ?_⟩
  · by_cases hmeans : ∃ v, Means program target v
    · obtain ⟨v, ⟨n, hn, -⟩ | hname⟩ := hmeans
      · exact exact_of_spells hn
      · exact (exact_iff_of_names hprogram hname).mpr (hvalues v hname)
    · exact exact_of_refused (resolveTarget_nothing hprogram fun v hv => hmeans ⟨v, hv⟩)
  · rintro source origin p hp rfl s hs label hlabel rfl
    obtain ⟨a, ha, hname⟩ := names_label hp hs hlabel
    refine ⟨a, ha, .inr hname, ?_⟩
    rw [exact_iff_of_names hprogram hname]
    omega

/-- A label inside of the address space, and a constant outside of it. -/
def farSource : String := ".equ FAR, 0x10200\nstart: jp start\n"

/-- A label behind the last address. -/
def fullSource : String := ".byte 1\nend:\n"

/-- The label of a jump, and a number that is too large. -/
theorem target_exact_farSource :
    ∃ p, Asm.assemble farSource 0x200 = .ok p ∧ FromSource (some p) ∧
      Exact (some p) "start" ∧ Exact (some p) "0x10200" ∧
      ∃ b, resolveTarget (some p) "start" = .ok b ∧ (b.address.toNat : Int) = 0x200 := by
  obtain ⟨p, hp, hname⟩ := names_of_valueOf? farSource 0x200 "start" 0x200 (by decide +kernel)
  have hsource := FromSource.of_assemble hp
  have hspells : Spells "0x10200".toList 0x10200 :=
    (Numeral.ofUser?_eq_some_iff.mp (by decide)).1
  obtain ⟨hiff, -, -, hresolves, -⟩ := target_exact hsource "start"
  obtain ⟨-, hnumber, -⟩ := target_exact hsource "0x10200"
  refine ⟨p, hp, hsource, hiff.mpr fun v hv => ?_, hnumber _ hspells,
    hresolves _ (.inr hname) (by decide) (by decide)⟩
  rw [hv.unique hsource hname]
  decide

/-- A constant and a label that lead to addresses that they do not stand for. -/
theorem target_elsewhere :
    (∃ p, Asm.assemble farSource 0x200 = .ok p ∧ Means (some p) "FAR" 0x10200 ∧
        resolveTarget (some p) "FAR" = .ok ⟨0x200, false⟩ ∧ ¬ Exact (some p) "FAR") ∧
      ∃ p, Asm.assemble fullSource 0xFFFF = .ok p ∧ Means (some p) "end" 0x10000 ∧
        resolveTarget (some p) "end" = .ok ⟨0, false⟩ ∧ ¬ Exact (some p) "end" := by
  constructor
  · obtain ⟨p, hp, hname⟩ := names_of_valueOf? farSource 0x200 "FAR" 0x10200 (by decide +kernel)
    have hsource := FromSource.of_assemble hp
    refine ⟨p, hp, .inr hname, resolveTarget_symbol hsource hname, ?_⟩
    rw [exact_iff_of_names hsource hname]
    decide
  · obtain ⟨p, hp, hname⟩ := names_of_valueOf? fullSource 0xFFFF "end" 0x10000 (by decide +kernel)
    have hsource := FromSource.of_assemble hp
    refine ⟨p, hp, .inr hname, resolveTarget_symbol hsource hname, ?_⟩
    rw [exact_iff_of_names hsource hname]
    decide

end Chip8.Cli
