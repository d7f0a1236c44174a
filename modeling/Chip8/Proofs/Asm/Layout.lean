import Chip8.Asm.Program
import Chip8.Proofs.Asm.Declarations
import Chip8.Proofs.Asm.Evaluation

/-! # Addresses

How far each of the two passes of the assembler moves.

* **Sizes.** `Statement.size?` is the number of bytes that a statement takes at an address, and
  `addressAt?` adds the sizes up. Both value every expression in one table of symbols.
* **Code.** `size_of_encodeBody`: what the second pass puts for a body without an error has this size
  and lies in the address space.
* **Layout.** `Layout.place_body`: the first pass moves by the same size, although it knows only some
  of the values (`SymbolTable.Extends`). -/

namespace Chip8.Asm

variable {symbols : SymbolTable}

/-! ### Sizes -/

/-- The number of bytes that a body takes at an address. -/
def Body.size? (symbols : SymbolTable) (address : Nat) : Body → Option Nat
  | .instruction .. => some 2
  | .constant .. => some 0
  | .origin n =>
      match n.numberIn symbols with
      | .ok v => if (address : Int) ≤ v.toInt then some (v.toInt - address).toNat else none
      | .error _ => none
  | .bytes values => some values.length
  | .words values => some (2 * values.length)
  | .reserve n =>
      match n.numberIn symbols with
      | .ok v => if 0 ≤ v.toInt then some v.toInt.toNat else none
      | .error _ => none

/-- The number of bytes that a statement takes at an address. -/
def Statement.size? (symbols : SymbolTable) (address : Nat) (s : Statement) : Option Nat :=
  match s.body with
  | none => some 0
  | some b => b.size? symbols address

/-- The address of the statement at a position of a list that starts at `address`; the position
behind the last statement has the address behind the program. -/
def addressAt? (symbols : SymbolTable) (address : Nat) : List Statement → Nat → Option Nat
  | _, 0 => some address
  | [], _ + 1 => none
  | s :: ss, i + 1 =>
      match s.size? symbols address with
      | some n => addressAt? symbols (address + n) ss i
      | none => none

/-! ### Places -/

theorem Place.advance_of_noErrors {a n : Nat} {span : Span}
    (h : hasErrors (Place.advance ⟨a, false⟩ n span).2 = false) :
    Place.advance ⟨a, false⟩ n span = (⟨(a + n) % 0x100000000, false⟩, []) ∧
      (a + n) % 0x100000000 ≤ addressSpace := by
  unfold Place.advance at h ⊢
  dsimp only at h ⊢
  split at h
  · cases h
  · rename_i hfits
    simp only [Bool.false_eq_true, not_false_eq_true, and_true, Nat.not_lt] at hfits
    rw [if_neg (by simpa using hfits)]
    exact ⟨rfl, hfits⟩

/-- Bytes that are put without an error lie in the address space, and all of them are there. -/
theorem Output.ofBytes_of_noErrors {a : Nat} (ha : a ≤ addressSpace) {bytes : List UInt8}
    (hlength : bytes.length ≤ addressSpace) {span : Span}
    (h : hasErrors (ofBytes ⟨a, false⟩ bytes span).diagnostics = false) :
    ofBytes ⟨a, false⟩ bytes span = ⟨⟨a + bytes.length, false⟩, bytes, []⟩ ∧
      a + bytes.length ≤ addressSpace := by
  have hspace : addressSpace = 0x10000 := rfl
  obtain ⟨hadvance, hle⟩ := Place.advance_of_noErrors h
  have hmod : (a + bytes.length) % 0x100000000 = a + bytes.length := by omega
  rw [hmod] at hadvance hle
  refine ⟨?_, hle⟩
  unfold ofBytes
  rw [hadvance]
  simp only [Place.fitting, Bool.false_eq_true, if_false]
  rw [List.take_of_length_le (by omega)]

/-! ### Code -/

/-- What is put at `a` takes `n` bytes, which lie in the address space. -/
structure Output.Takes (o : Output) (a n : Nat) : Prop where
  place : o.place = ⟨a + n, false⟩
  length : o.bytes.length = n
  fits : a + n ≤ addressSpace

theorem takes_ofBytes {a : Nat} (ha : a ≤ addressSpace) {bytes : List UInt8}
    (hlength : bytes.length ≤ addressSpace) {span : Span}
    (h : hasErrors (Output.ofBytes ⟨a, false⟩ bytes span).diagnostics = false) :
    (Output.ofBytes ⟨a, false⟩ bytes span).Takes a bytes.length := by
  obtain ⟨hput, hle⟩ := Output.ofBytes_of_noErrors ha hlength h
  rw [hput]
  exact ⟨rfl, rfl, hle⟩

theorem takes_nothing {a : Nat} (ha : a ≤ addressSpace) :
    (Output.nothing ⟨a, false⟩).Takes a 0 :=
  ⟨rfl, rfl, ha⟩

theorem Output.Takes.reporting {o : Output} {a n : Nat} (h : o.Takes a n)
    (reports : List Diagnostic) : (o.reporting reports).Takes a n :=
  ⟨h.place, h.length, h.fits⟩

theorem Output.Takes.andThen {o : Output} {a n m : Nat} (h : o.Takes a n)
    {next : Place → Output} (hnext : (next ⟨a + n, false⟩).Takes (a + n) m) :
    (o.andThen next).Takes a (n + m) := by
  unfold Output.andThen
  rw [h.place]
  constructor
  · rw [hnext.place, Nat.add_assoc]
  · rw [List.length_append, h.length, hnext.length]
  · have := hnext.fits
    omega

/-- The errors of two outputs one behind the other. -/
theorem Output.hasErrors_andThen (o : Output) (next : Place → Output) :
    hasErrors (o.andThen next).diagnostics =
      (hasErrors o.diagnostics || hasErrors (next o.place).diagnostics) := by
  simp [Output.andThen, hasErrors_append]

theorem takes_encodeValues {bits k : Nat} {toBytes : UInt16 → List UInt8}
    (htoBytes : ∀ w, (toBytes w).length = k) (hk : k ≤ addressSpace) {span : Span} {a : Nat}
    (ha : a ≤ addressSpace) {values : List Node}
    (h : hasErrors (encodeValues symbols bits toBytes span ⟨a, false⟩ values).diagnostics = false) :
    (encodeValues symbols bits toBytes span ⟨a, false⟩ values).Takes a (k * values.length) := by
  induction values generalizing a with
  | nil => exact takes_nothing ha
  | cons n ns ih =>
      unfold encodeValues at h ⊢
      dsimp only at h ⊢
      generalize orReport 0 (immediate symbols bits n) = r at h ⊢
      rw [Output.hasErrors_andThen, Bool.or_eq_false_iff] at h
      obtain ⟨hhead, htail⟩ := h
      rw [Output.reporting, hasErrors_append, Bool.or_eq_false_iff] at hhead
      have hput := takes_ofBytes ha (by rw [htoBytes]; exact hk) hhead.2
      rw [htoBytes] at hput
      have hplace := (hput.reporting r.2).place
      rw [hplace] at htail
      have hrest := ih hput.fits htail
      have hsum : k * (ns.length + 1) = k + k * ns.length := by
        rw [Nat.mul_add, Nat.mul_one, Nat.add_comm]
      rw [List.length_cons, hsum]
      exact (hput.reporting r.2).andThen hrest

theorem refuses_gap (symbols : SymbolTable) (a : Nat) (n : Node) : Refuses (gap symbols a n) := by
  unfold gap
  split
  · exact .error rfl
  · split
    · exact .error rfl
    · exact .ok _

theorem refuses_reservation (symbols : SymbolTable) (n : Node) :
    Refuses (reservation symbols n) := by
  unfold reservation
  split
  · exact .error rfl
  · split
    · exact .ok _
    · exact .error rfl

theorem gap_eq_ok {a k : Nat} {n : Node} (h : gap symbols a n = .ok k) :
    ∃ v, n.numberIn symbols = .ok v ∧ (a : Int) ≤ v.toInt ∧ v.toInt < addressSpace ∧
      k = (v.toInt - a).toNat := by
  unfold gap at h
  split at h
  · cases h
  · rename_i v hv
    split at h
    · cases h
    · rename_i hreach
      cases h
      rw [not_or, Int.not_lt, Int.not_le] at hreach
      exact ⟨v, hv, hreach.1, hreach.2, by omega⟩

theorem reservation_eq_ok {k : Nat} {n : Node} (h : reservation symbols n = .ok k) :
    ∃ v, n.numberIn symbols = .ok v ∧ 0 ≤ v.toInt ∧ v.toInt < addressSpace ∧
      k = v.toInt.toNat := by
  unfold reservation at h
  split at h
  · cases h
  · rename_i v hv
    split at h
    · rename_i hrange
      cases h
      exact ⟨v, hv, hrange.1, hrange.2, rfl⟩
    · cases h

/-- Zeros that are put without an error are as many as were demanded. -/
theorem takes_encodeZeros {a : Nat} (ha : a ≤ addressSpace) {count : Except Diagnostic Nat}
    (hcount : Refuses count) (hle : ∀ n, count = .ok n → n ≤ addressSpace) {span : Span}
    (h : hasErrors (encodeZeros ⟨a, false⟩ count span).diagnostics = false) :
    ∃ n, count = .ok n ∧ (encodeZeros ⟨a, false⟩ count span).Takes a n ∧
      (encodeZeros ⟨a, false⟩ count span).bytes = List.replicate n 0 := by
  unfold encodeZeros at h ⊢
  cases count with
  | error d => simp [hasErrors, hcount d rfl] at h
  | ok n =>
      have hn := hle n rfl
      dsimp only at h ⊢
      unfold Output.zeros at h ⊢
      rw [Nat.min_eq_left hn] at h ⊢
      have hlength : (List.replicate n (0 : UInt8)).length = n := List.length_replicate
      have hput := takes_ofBytes ha (by rw [hlength]; exact hn) h
      rw [hlength] at hput
      refine ⟨n, rfl, hput, ?_⟩
      rw [(Output.ofBytes_of_noErrors ha (by rw [hlength]; exact hn) h).1]

theorem length_wordBytes (w : UInt16) : (wordBytes w).length = 2 := rfl

/-- **Code has the size of its body**: what the second pass puts for a body without an error. -/
theorem size_of_encodeBody {a : Nat} (ha : a ≤ addressSpace) {span : Span} {b : Body}
    (h : hasErrors (encodeBody symbols span ⟨a, false⟩ b).diagnostics = false) :
    ∃ n, b.size? symbols a = some n ∧ (encodeBody symbols span ⟨a, false⟩ b).Takes a n := by
  have hspace : addressSpace = 0x10000 := rfl
  cases b with
  | instruction form operands =>
      unfold encodeBody at h ⊢
      dsimp only at h ⊢
      rw [Output.reporting, hasErrors_append, Bool.or_eq_false_iff] at h
      exact ⟨2, rfl, (takes_ofBytes ha (by rw [length_wordBytes]; omega) h.2).reporting _⟩
  | constant name value => exact ⟨0, rfl, takes_nothing ha⟩
  | origin n =>
      obtain ⟨k, hk, htakes, _⟩ := takes_encodeZeros ha (refuses_gap symbols a n)
        (fun k hk => by obtain ⟨v, _, _, hv, rfl⟩ := gap_eq_ok hk; omega) h
      obtain ⟨v, hv, hle, _, rfl⟩ := gap_eq_ok hk
      exact ⟨_, by simp [Body.size?, hv, hle], htakes⟩
  | bytes values =>
      rw [encodeBody] at h ⊢
      have htakes := takes_encodeValues (k := 1) (fun _ => rfl) (by omega) ha h
      rw [Nat.one_mul] at htakes
      exact ⟨values.length, rfl, htakes⟩
  | words values =>
      rw [encodeBody] at h ⊢
      exact ⟨2 * values.length, rfl, takes_encodeValues length_wordBytes (by omega) ha h⟩
  | reserve n =>
      obtain ⟨k, hk, htakes, _⟩ := takes_encodeZeros ha (refuses_reservation symbols n)
        (fun k hk => by obtain ⟨v, _, _, hv, rfl⟩ := reservation_eq_ok hk; omega) h
      obtain ⟨v, hv, hle, _, rfl⟩ := reservation_eq_ok hk
      exact ⟨_, by simp [Body.size?, hv, hle], htakes⟩

theorem size_of_encodeStatement {a : Nat} (ha : a ≤ addressSpace) {s : Statement}
    (h : hasErrors (encodeStatement symbols ⟨a, false⟩ s).diagnostics = false) :
    ∃ n, s.size? symbols a = some n ∧ (encodeStatement symbols ⟨a, false⟩ s).Takes a n := by
  unfold encodeStatement at h ⊢
  unfold Statement.size?
  cases hbody : s.body with
  | none => exact ⟨0, rfl, takes_nothing ha⟩
  | some b =>
      rw [hbody] at h
      exact size_of_encodeBody ha h

/-! ### Layout -/

namespace Layout

variable {l : Layout}

theorem extends_define (name : Label) (value : Int64) :
    l.symbols.Extends (l.define name value).1.symbols ∧
      (l.define name value).1.symbols.names = l.symbols.names ∧
      (l.define name value).1.place = l.place := by
  unfold define
  split
  · rename_i t ht
    exact ⟨SymbolTable.extends_define ht, SymbolTable.names_define ht, rfl⟩
  · exact ⟨.refl _, rfl, rfl⟩

theorem lookup_define {name : Label} {value : Int64}
    (h : hasErrors (l.define name value).2 = false) :
    (l.define name value).1.symbols.lookup name.name = .value value := by
  unfold define at h ⊢
  split
  · rename_i t ht
    rw [(SymbolTable.lookup_define ht).2 name.name, if_pos rfl]
  · rename_i e he
    rw [he] at h
    cases h

theorem symbols_advance (n : Nat) (span : Span) :
    (l.advance n span).1.symbols = l.symbols := rfl

theorem symbols_advanceBy (count : Except Diagnostic Nat) (span : Span) :
    (l.advanceBy count span).1.symbols = l.symbols := by
  unfold advanceBy
  split <;> rfl

/-- A body gives names values and takes none away. -/
theorem extends_body (span : Span) (b : Body) :
    l.symbols.Extends (l.body span b).1.symbols ∧
      (l.body span b).1.symbols.names = l.symbols.names := by
  have hsame : ∀ {m : Layout}, m.symbols = l.symbols →
      l.symbols.Extends m.symbols ∧ m.symbols.names = l.symbols.names := by
    intro m hm
    rw [hm]
    exact ⟨.refl _, rfl⟩
  cases b with
  | instruction form operands => exact hsame (symbols_advance _ _)
  | constant name value =>
      show l.symbols.Extends (l.constant name value).1.symbols ∧ _
      unfold body constant
      dsimp only
      split
      · obtain ⟨hextends, hnames, _⟩ := extends_define (l := l) name _
        exact ⟨hextends, hnames⟩
      · exact ⟨.refl _, rfl⟩
      · exact ⟨.refl _, rfl⟩
  | origin n => exact hsame (symbols_advanceBy _ _)
  | bytes values => exact hsame (symbols_advance _ _)
  | words values => exact hsame (symbols_advance _ _)
  | reserve n => exact hsame (symbols_advanceBy _ _)

/-- A constant gets the value of its expression. -/
theorem lookup_constant {name : Label} {value : Node}
    (h : hasErrors (l.constant name value).2 = false) :
    ∃ v, value.numberIn l.symbols = .ok v ∧
      (l.constant name value).1.symbols.lookup name.name = .value v := by
  unfold constant at h ⊢
  split
  · rename_i v hv
    rw [hv] at h
    exact ⟨v, Node.numberIn_of_tryNumberIn hv, lookup_define h⟩
  · rename_i hv
    rw [hv] at h
    cases h
  · rename_i e he
    rw [he] at h
    cases h

theorem place_advance {a n : Nat} (hl : l.place = ⟨a, false⟩) (hfits : a + n ≤ addressSpace)
    {span : Span} (h : hasErrors (l.advance n span).2 = false) :
    (l.advance n span).1.place = ⟨a + n, false⟩ := by
  have hspace : addressSpace = 0x10000 := rfl
  unfold advance at h ⊢
  rw [hl] at h ⊢
  have hmod : (a + n) % 0x100000000 = a + n := by omega
  rw [(Place.advance_of_noErrors h).1, hmod]

/-- **The first pass moves like the second one**: it takes the size of a body in a table that knows
more. -/
theorem place_body {a n : Nat} (hl : l.place = ⟨a, false⟩) {final : SymbolTable}
    (hfinal : l.symbols.Extends final) {span : Span} {b : Body}
    (hsize : b.size? final a = some n) (hfits : a + n ≤ addressSpace)
    (h : hasErrors (l.body span b).2 = false) : (l.body span b).1.place = ⟨a + n, false⟩ := by
  have hby : ∀ {count : Except Diagnostic Nat} {span : Span}, Refuses count →
      (∀ k, count = .ok k → k = n) → hasErrors (l.advanceBy count span).2 = false →
      (l.advanceBy count span).1.place = ⟨a + n, false⟩ := by
    intro count span hrefuses hcount h
    unfold advanceBy at h ⊢
    cases count with
    | error d => simp [hasErrors, hrefuses d rfl] at h
    | ok k =>
        obtain rfl := hcount k rfl
        exact place_advance hl hfits h
  cases b with
  | instruction form operands =>
      cases hsize
      exact place_advance hl hfits h
  | constant name value =>
      cases hsize
      show (l.constant name value).1.place = _
      unfold constant
      split
      · rw [(extends_define name _).2.2, hl]
        rfl
      · exact hl
      · exact hl
  | origin m =>
      refine hby (refuses_gap _ _ _) (fun k hk => ?_) h
      obtain ⟨v, hv, hle, _, rfl⟩ := gap_eq_ok hk
      rw [hl] at hle ⊢
      rw [Body.size?, Node.numberIn_mono hfinal hv] at hsize
      simpa [hle] using hsize
  | bytes values =>
      cases hsize
      exact place_advance hl hfits h
  | words values =>
      cases hsize
      exact place_advance hl hfits h
  | reserve m =>
      refine hby (refuses_reservation _ _) (fun k hk => ?_) h
      obtain ⟨v, hv, hle, _, rfl⟩ := reservation_eq_ok hk
      rw [Body.size?, Node.numberIn_mono hfinal hv] at hsize
      simpa [hle] using hsize

/-- What a layout knows behind the label of a statement. -/
structure Labelled (l : Layout) (s : Statement) (m : Layout) : Prop where
  place : m.place = l.place
  known : l.symbols.Extends m.symbols
  names : m.symbols.names = l.symbols.names
  value : ∀ label, s.label = some label →
    m.symbols.lookup label.name = .value (Int64.ofNat l.place.address)

/-- A statement without an error is its label and then its body. -/
theorem statement_of_noErrors {s : Statement} (h : hasErrors (l.statement s).2 = false) :
    ∃ m, Labelled l s m ∧
      (s.body = none → (l.statement s).1 = m) ∧
      ∀ b, s.body = some b →
        (l.statement s).1 = (m.body s.span b).1 ∧ hasErrors (m.body s.span b).2 = false := by
  unfold statement at h ⊢
  cases hlabel : s.label with
  | none =>
      rw [hlabel] at h
      refine ⟨l, ⟨rfl, .refl _, rfl, fun label e => by rw [hlabel] at e; cases e⟩, ?_, ?_⟩
      · intro hbody
        rw [hbody]
      · intro b hbody
        rw [hbody] at h ⊢
        exact ⟨rfl, h⟩
  | some label =>
      rw [hlabel] at h
      dsimp only at h ⊢
      rw [hasErrors_append, Bool.or_eq_false_iff] at h
      obtain ⟨hextends, hnames, hplace⟩ :=
        extends_define (l := l) label (Int64.ofNat l.place.address)
      refine ⟨_, ⟨hplace, hextends, hnames, fun label' e => ?_⟩, ?_, ?_⟩
      · rw [hlabel] at e
        cases e
        exact lookup_define h.1
      · intro hbody
        rw [hbody]
      · intro b hbody
        rw [hbody] at h ⊢
        exact ⟨rfl, h.2⟩

theorem extends_statement {s : Statement} (h : hasErrors (l.statement s).2 = false) :
    l.symbols.Extends (l.statement s).1.symbols ∧
      (l.statement s).1.symbols.names = l.symbols.names := by
  obtain ⟨m, hm, hnone, hsome⟩ := statement_of_noErrors h
  cases hbody : s.body with
  | none =>
      rw [hnone hbody]
      exact ⟨hm.known, hm.names⟩
  | some b =>
      rw [(hsome b hbody).1]
      obtain ⟨hextends, hnames⟩ := extends_body (l := m) s.span b
      exact ⟨hm.known.trans hextends, hnames.trans hm.names⟩

theorem extends_statements {ss : List Statement} (h : hasErrors (l.statements ss).2 = false) :
    l.symbols.Extends (l.statements ss).1.symbols ∧
      (l.statements ss).1.symbols.names = l.symbols.names := by
  induction ss generalizing l with
  | nil => exact ⟨.refl _, rfl⟩
  | cons s ss ih =>
      unfold statements at h ⊢
      rw [hasErrors_append, Bool.or_eq_false_iff] at h
      obtain ⟨hextends, hnames⟩ := extends_statement h.1
      obtain ⟨hextends', hnames'⟩ := ih h.2
      exact ⟨hextends.trans hextends', hnames'.trans hnames⟩

end Layout

end Chip8.Asm
