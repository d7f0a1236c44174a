import Chip8.Proofs.Asm.BadOperands

/-! # Passes with checked addresses

Both passes of the assembler once more, as programs that trap where the arithmetic of the address
goes wrong.

* **Traps.** A sum or product may not fit a 32-bit word (`Trap.tooLarge`), and a difference may be
  below zero (`Trap.belowZero`). For every definition `f` that moves the address, `f?` is its
  checked form. What `.origin` fills is written by the first pass too, so there is a difference in
  both.
* **Moves.** `Moves r a p q n ds` relates a checked program `r` to what it should compute: `a` with
  the place `q` and the reports `ds`, behind `n` bytes from `p` on. It traps exactly if these do not
  fit. Moves are put together by `Moves.bind`, and nothing else is needed of sums on the way.
* `moves_statements` and `moves_encodeStatements` are about the passes. `Layout.asked` and
  `codeAsked` add up what the statements ask for. -/

namespace Chip8.Asm

/-- The number of addresses that a 32-bit word can name. -/
def addressLimit : Nat := 0x100000000

/-- What goes wrong with an address. -/
inductive Trap where
  | tooLarge
  | belowZero
deriving DecidableEq

namespace Trap

/-- A number that has to be a 32-bit word. -/
def within (n : Nat) : Except Trap Nat := if n < addressLimit then .ok n else .error .tooLarge

/-- A difference that has to be a number. -/
def minus (a b : Nat) : Except Trap Nat := if b ≤ a then .ok (a - b) else .error .belowZero

theorem minus_eq {a b : Nat} (h : b ≤ a) : minus a b = .ok (a - b) := if_pos h

end Trap

open Trap

/-! ### Checked forms -/

namespace Place

def advance? (p : Place) (n : Nat) (span : Span) : Except Trap (Place × List Diagnostic) := do
  let address ← within (p.address + n)
  if addressSpace < address ∧ ¬ p.overflowed then pure (⟨address, true⟩, [⟨.overflow, span⟩])
  else pure (⟨address, p.overflowed⟩, [])

def fitting? (p : Place) (bytes : List UInt8) : Except Trap (List UInt8) :=
  if p.overflowed then pure []
  else do
    let room ← minus addressSpace p.address
    pure (bytes.take room)

end Place

def gap? (symbols : SymbolTable) (address : Nat) (target : Node) :
    Except Trap (Except Diagnostic Nat) :=
  match target.numberIn symbols with
  | .error e => pure (.error (.ofEvaluation e))
  | .ok t =>
      if t.toInt < address ∨ addressSpace ≤ t.toInt then
        pure (.error ⟨.originOutOfReach t address, target.span⟩)
      else do
        let n ← minus t.toInt.toNat address
        pure (.ok n)

namespace Layout

def advance? (l : Layout) (n : Nat) (span : Span) : Except Trap (Layout × List Diagnostic) := do
  let moved ← l.place.advance? n span
  pure ({ l with place := moved.1 }, moved.2)

def advanceBy? (l : Layout) (count : Except Diagnostic Nat) (span : Span) :
    Except Trap (Layout × List Diagnostic) :=
  match count with
  | .ok n => l.advance? n span
  | .error d => pure (l, [d])

/-- Go on behind zeros, which are written into what room there is. -/
def fillBy? (l : Layout) (count : Except Diagnostic Nat) (span : Span) :
    Except Trap (Layout × List Diagnostic) :=
  match count with
  | .ok n => do
      let _ ← l.place.fitting? (List.replicate (min n addressSpace) 0)
      l.advance? (min n addressSpace) span
  | .error d => pure (l, [d])

/-- Lay out a body. The lengths of lists are taken as 32-bit words. -/
def body? (l : Layout) (span : Span) : Body → Except Trap (Layout × List Diagnostic)
  | .instruction .. => l.advance? 2 span
  | .constant name value => pure (l.constant name value)
  | .origin n => do
      let count ← gap? l.symbols l.place.address n
      l.fillBy? count n.span
  | .bytes values => l.advance? (values.length % addressLimit) span
  | .words values => do
      let n ← within (2 * (values.length % addressLimit))
      l.advance? n span
  | .reserve n => l.advanceBy? (reservation l.symbols n) span

def statement? (l : Layout) (s : Statement) : Except Trap (Layout × List Diagnostic) := do
  let labelled := match s.label with
    | some label => l.define label (Int64.ofNat l.place.address)
    | none => (l, [])
  let behind ← match s.body with
    | some b => labelled.1.body? s.span b
    | none => pure (labelled.1, [])
  pure (behind.1, labelled.2 ++ behind.2)

def statements? (l : Layout) : List Statement → Except Trap (Layout × List Diagnostic)
  | [] => pure (l, [])
  | s :: ss => do
      let first ← l.statement? s
      let rest ← first.1.statements? ss
      pure (rest.1, first.2 ++ rest.2)

end Layout

namespace Output

def ofBytes? (p : Place) (bytes : List UInt8) (span : Span) : Except Trap Output := do
  let kept ← p.fitting? bytes
  let moved ← p.advance? bytes.length span
  pure ⟨moved.1, kept, moved.2⟩

def zeros? (p : Place) (n : Nat) (span : Span) : Except Trap Output :=
  ofBytes? p (List.replicate (min n addressSpace) 0) span

def andThen? (o : Except Trap Output) (next : Place → Except Trap Output) : Except Trap Output := do
  let first ← o
  let rest ← next first.place
  pure (first.andThen fun _ => rest)

def reporting? (reports : List Diagnostic) (o : Except Trap Output) : Except Trap Output := do
  let put ← o
  pure (put.reporting reports)

end Output

def encodeValues? (symbols : SymbolTable) (bits : Nat) (toBytes : UInt16 → List UInt8) (span : Span)
    (p : Place) : List Node → Except Trap Output
  | [] => pure (.nothing p)
  | n :: ns =>
      let valued := orReport 0 (immediate symbols bits n)
      let put := Output.reporting? valued.2 (Output.ofBytes? p (toBytes valued.1) span)
      Output.andThen? put fun p => encodeValues? symbols bits toBytes span p ns

def encodeZeros? (p : Place) (count : Except Diagnostic Nat) (span : Span) : Except Trap Output :=
  match count with
  | .ok n => Output.zeros? p n span
  | .error d => pure ⟨p, [], [d]⟩

def encodeBody? (symbols : SymbolTable) (span : Span) (p : Place) : Body → Except Trap Output
  | .instruction form operands =>
      let word := instructionWord symbols form operands
      Output.reporting? (alignment p.address span ++ word.2)
        (Output.ofBytes? p (wordBytes word.1) span)
  | .constant .. => pure (.nothing p)
  | .origin n => do
      let count ← gap? symbols p.address n
      encodeZeros? p count n.span
  | .bytes values => encodeValues? symbols 8 (fun w => [w.toUInt8]) span p values
  | .words values => encodeValues? symbols 16 wordBytes span p values
  | .reserve n => encodeZeros? p (reservation symbols n) span

def encodeStatement? (symbols : SymbolTable) (p : Place) (s : Statement) : Except Trap Output :=
  match s.body with
  | none => pure (.nothing p)
  | some b => encodeBody? symbols s.span p b

def encodeStatements? (symbols : SymbolTable) (p : Place) : List Statement → Except Trap Output
  | [] => pure (.nothing p)
  | s :: ss =>
      Output.andThen? (encodeStatement? symbols p s) fun p => encodeStatements? symbols p ss

/-- Assemble a source text for an origin. -/
def assemble? (source : String) (origin : UInt16) :
    Except Trap (Except (List Diagnostic) Program) :=
  let parsed := parse source
  if hasErrors parsed.diagnostics then pure (.error parsed.diagnostics)
  else do
    let start := Place.ofOrigin origin
    let layout ← Layout.statements? ⟨start, parsed.symbols⟩ parsed.statements
    let found := parsed.diagnostics ++ layout.2
    if hasErrors found then pure (.error found)
    else do
      let code ← encodeStatements? layout.1.symbols start parsed.statements
      let symbols := markReferences layout.1.symbols parsed.statements
      let found := found ++ code.diagnostics ++ unusedLabels symbols
      pure (if hasErrors found then .error found else .ok ⟨origin, code.bytes, symbols, found⟩)

/-! ### Moves -/

/-- The number of reports that the address space was left. -/
def overflows (ds : List Diagnostic) : Nat := ds.countP (·.cause = .overflow)

theorem overflows_append (ds es : List Diagnostic) :
    overflows (ds ++ es) = overflows ds + overflows es :=
  List.countP_append

theorem overflows_eq_zero {ds : List Diagnostic} (h : ∀ d ∈ ds, d.cause ≠ .overflow) :
    overflows ds = 0 := by
  rw [overflows, List.countP_eq_zero]
  intro d hd
  simpa using h d hd

/-- A place that a pass gets to: a 32-bit word, which lies in the address space unless it was noted
that this was left. -/
structure Place.Sound (p : Place) : Prop where
  word : p.address < addressLimit
  fits : p.overflowed = false → p.address ≤ addressSpace

/-- The checked program gets from `p` to `q`, behind `n` bytes, computes `a` and reports `ds`,
unless it traps because `n` more bytes do not fit the address. What was noted about the address
space is what was reported. A number of bytes that does not go round the address leaves the address
space if they do not fit it. -/
structure Moves {α : Type} (r : Except Trap α) (a : α) (p q : Place) (n : Nat)
    (ds : List Diagnostic) : Prop where
  checked : r = if p.address + n < addressLimit then .ok a else .error .tooLarge
  address : q.address = (p.address + n) % addressLimit
  fits : q.overflowed = false → q.address ≤ addressSpace
  reports : p.overflowed.toNat + overflows ds = q.overflowed.toNat
  leaves : addressSpace + n < addressLimit →
    q.overflowed = (p.overflowed || decide (addressSpace < p.address + n))

theorem Place.sound_ofOrigin (origin : UInt16) : (Place.ofOrigin origin).Sound :=
  ⟨Nat.lt_trans origin.toNat_lt (by decide), fun _ => Nat.le_of_lt origin.toNat_lt⟩

namespace Moves

variable {α β : Type} {r : Except Trap α} {a : α} {b : β} {p q q' : Place} {n m : Nat}
  {ds es : List Diagnostic}

theorem sound (h : Moves r a p q n ds) : q.Sound :=
  ⟨h.address ▸ Nat.mod_lt _ (by decide), h.fits⟩

theorem overflows_eq (h : Moves r a p q n ds) (hp : p.overflowed = false) :
    overflows ds = q.overflowed.toNat := by
  have hreports := h.reports
  rw [hp] at hreports
  exact (Nat.zero_add _).symm.trans hreports

/-- Where there is room, nothing is noted. -/
theorem overflows_of_room (h : Moves r a p q n ds) (hp : p.overflowed = false)
    (hroom : p.address + n ≤ addressSpace) : overflows ds = 0 := by
  have hspace : addressSpace + addressSpace < addressLimit := by decide
  rw [h.overflows_eq hp, h.leaves (by omega), hp, decide_eq_false (Nat.not_lt_of_le hroom)]
  rfl

/-- To stay where one is. -/
theorem stay (hp : p.Sound) (a : α) {ds : List Diagnostic} (hds : ∀ d ∈ ds, d.cause ≠ .overflow) :
    Moves (pure a) a p p 0 ds := by
  refine ⟨(if_pos hp.word).symm, (Nat.mod_eq_of_lt hp.word).symm, hp.fits, ?_, fun _ => ?_⟩
  · rw [overflows_eq_zero hds, Nat.add_zero]
  · cases hover : p.overflowed with
    | true => rfl
    | false => simpa using hp.fits hover

/-- Whether more bytes behind a move leave the address space can be told from where it began. -/
theorem past (h : Moves r a p q n ds) (hp : p.Sound) (hsmall : addressSpace + n < addressLimit)
    (m : Nat) :
    (q.overflowed || decide (addressSpace < q.address + m)) =
      (p.overflowed || decide (addressSpace < p.address + (n + m))) := by
  rw [h.leaves hsmall]
  cases hover : p.overflowed with
  | true => rfl
  | false =>
      have hin := hp.fits hover
      rw [h.address, Nat.mod_eq_of_lt (by omega)]
      simp only [Bool.false_or, ← Bool.decide_or, decide_eq_decide]
      omega

/-- One move behind the other. A sum that does not fit stays too large, whatever is added to it. -/
theorem bind (hp : p.Sound) (h : Moves r a p q n ds) {f : α → Except Trap β}
    (hf : Moves (f a) b q q' m es) : Moves (r >>= f) b p q' (n + m) (ds ++ es) := by
  refine ⟨?_, ?_, hf.fits, ?_, fun hsmall => ?_⟩
  · rw [h.checked]
    by_cases hn : p.address + n < addressLimit
    · have haddress := h.address
      rw [Nat.mod_eq_of_lt hn] at haddress
      rw [if_pos hn]
      show f a = _
      rw [hf.checked, haddress, Nat.add_assoc]
    · rw [if_neg hn, if_neg (by omega)]
      rfl
  · rw [hf.address, h.address, Nat.mod_add_mod, Nat.add_assoc]
  · rw [overflows_append, ← Nat.add_assoc, h.reports, hf.reports]
  · rw [hf.leaves (by omega), h.past hp (by omega)]

/-- What is computed from the result. -/
theorem map (h : Moves r a p q n ds) {f : α → Except Trap β} (hf : f a = pure b) :
    Moves (r >>= f) b p q n ds := by
  refine ⟨?_, h.address, h.fits, h.reports, h.leaves⟩
  rw [h.checked]
  split
  · exact hf
  · rfl

/-- What was reported before counts too. -/
theorem behind (h : Moves r a p q n ds) (hes : ∀ d ∈ es, d.cause ≠ .overflow) :
    Moves r a p q n (es ++ ds) := by
  refine ⟨h.checked, h.address, h.fits, ?_, h.leaves⟩
  rw [overflows_append, overflows_eq_zero hes, Nat.zero_add, h.reports]

end Moves

/-! ### Steps -/

theorem gap?_eq (symbols : SymbolTable) (address : Nat) (target : Node) :
    gap? symbols address target = pure (gap symbols address target) := by
  unfold gap? gap
  cases target.numberIn symbols with
  | error e => rfl
  | ok t =>
      dsimp only
      split
      · rfl
      · -- A target that is not refused is not below the address.
        rw [minus_eq (by omega)]
        rfl

theorem Place.fitting?_eq {p : Place} (hp : p.Sound) (bytes : List UInt8) :
    p.fitting? bytes = pure (p.fitting bytes) := by
  unfold fitting? fitting
  cases hover : p.overflowed with
  | true => rfl
  | false =>
      rw [minus_eq (hp.fits hover)]
      rfl

/-- A number of bytes counts modulo the number of addresses. -/
theorem Place.advance_congr {n m : Nat} (h : n % addressLimit = m % addressLimit) (p : Place)
    (span : Span) : p.advance n span = p.advance m span := by
  have hsum : (p.address + n) % addressLimit = (p.address + m) % addressLimit := by
    rw [Nat.add_mod, h, ← Nat.add_mod]
  unfold advance
  rw [← addressLimit, hsum]

theorem moves_advance {p : Place} (hp : p.Sound) (n : Nat) (span : Span) :
    Moves (p.advance? n span) (p.advance n span) p (p.advance n span).1 n
      (p.advance n span).2 := by
  have hlimit : 0x100000000 = addressLimit := rfl
  unfold Place.advance? Place.advance within
  rw [hlimit]
  by_cases hleaves : addressSpace < (p.address + n) % addressLimit ∧ ¬ p.overflowed = true
  · have hover : p.overflowed = false := by simpa using hleaves.2
    have hin := hp.fits hover
    dsimp only
    rw [if_pos hleaves]
    refine ⟨?_, rfl, nofun, by rw [hover]; rfl, fun hsmall => ?_⟩
    · split
      · rename_i hn
        rw [Nat.mod_eq_of_lt hn] at hleaves
        exact (if_pos hleaves).trans (by rw [Nat.mod_eq_of_lt hn]; rfl)
      · rfl
    · rw [Nat.mod_eq_of_lt (by omega)] at hleaves
      rw [decide_eq_true hleaves.1, Bool.or_true]
  · dsimp only
    rw [if_neg hleaves]
    refine ⟨?_, rfl, fun (hover : p.overflowed = false) => ?_, rfl, fun hsmall => ?_⟩
    · split
      · rename_i hn
        rw [Nat.mod_eq_of_lt hn] at hleaves
        exact (if_neg hleaves).trans (by rw [Nat.mod_eq_of_lt hn]; rfl)
      · rfl
    · simpa [hover] using hleaves
    · cases hover : p.overflowed with
      | true => rfl
      | false =>
          have hin := hp.fits hover
          rw [Nat.mod_eq_of_lt (by omega)] at hleaves
          simpa [hover] using hleaves

/-! ### The first pass -/

/-- The number of bytes that is asked for; none if it is wrong. -/
def asked (count : Except Diagnostic Nat) : Nat := count.toOption.getD 0

/-- The number of bytes that the first pass takes a body to ask for: the lengths of lists are taken
as 32-bit words. -/
def Body.asked (symbols : SymbolTable) (address : Nat) : Body → Nat
  | .bytes values => values.length % addressLimit
  | .words values => 2 * (values.length % addressLimit)
  | b => Asm.asked (b.count symbols address)

/-- The reports about a count. -/
theorem cause_of_gap {symbols : SymbolTable} {address : Nat} {n : Node} {d : Diagnostic}
    (h : gap symbols address n = .error d) : d.cause ≠ .overflow := by
  unfold gap at h
  split at h
  · cases h
    simp [Diagnostic.ofEvaluation]
  · split at h
    · cases h
      simp
    · cases h

theorem cause_of_reservation {symbols : SymbolTable} {n : Node} {d : Diagnostic}
    (h : reservation symbols n = .error d) : d.cause ≠ .overflow := by
  unfold reservation at h
  split at h
  · cases h
    simp [Diagnostic.ofEvaluation]
  · split at h
    · cases h
    · cases h
      simp

namespace Layout

variable {l : Layout}

theorem moves_advance (hl : l.place.Sound) (n : Nat) (span : Span) :
    Moves (l.advance? n span) (l.advance n span) l.place (l.advance n span).1.place n
      (l.advance n span).2 :=
  (Asm.moves_advance hl n span).map rfl

theorem moves_advanceBy (hl : l.place.Sound) {count : Except Diagnostic Nat}
    (hcount : ∀ d, count = .error d → d.cause ≠ .overflow) (span : Span) :
    Moves (l.advanceBy? count span) (l.advanceBy count span) l.place
      (l.advanceBy count span).1.place (asked count) (l.advanceBy count span).2 := by
  cases count with
  | ok n => exact moves_advance hl n span
  | error d => exact .stay hl _ fun e he => List.mem_singleton.mp he ▸ hcount d rfl

/-- Filling up the address space moves as going on does. -/
theorem fillBy?_eq (hl : l.place.Sound) {count : Except Diagnostic Nat}
    (hcount : ∀ n, count = .ok n → n ≤ addressSpace) (span : Span) :
    l.fillBy? count span = l.advanceBy? count span := by
  cases count with
  | error d => rfl
  | ok n =>
      unfold fillBy? advanceBy?
      dsimp only
      rw [Place.fitting?_eq hl, Nat.min_eq_left (hcount n rfl)]
      rfl

theorem cause_of_define (l : Layout) (name : Label) (value : Int64) :
    ∀ d ∈ (l.define name value).2, d.cause ≠ .overflow := by
  unfold define
  split
  · simp
  · simp

theorem place_constant {name : Label} {value : Node} :
    (l.constant name value).1.place = l.place := by
  unfold constant
  split
  · exact (extends_define name _).2.2
  · rfl
  · rfl

theorem cause_of_constant {name : Label} {value : Node} :
    ∀ d ∈ (l.constant name value).2, d.cause ≠ .overflow := by
  unfold constant
  split
  · exact cause_of_define l name _
  · simp
  · simp [Diagnostic.ofEvaluation]

/-- A product that does not fit is no sum that does. -/
theorem within_advance? (n : Nat) (span : Span) :
    (do let m ← within n; l.advance? m span) = l.advance? n span := by
  by_cases hn : n < addressLimit
  · rw [within, if_pos hn]
    rfl
  · unfold advance? Place.advance?
    rw [within, within, if_neg hn, if_neg (by omega)]
    rfl

theorem moves_body (hl : l.place.Sound) (span : Span) (b : Body) :
    Moves (l.body? span b) (l.body span b) l.place (l.body span b).1.place
      (b.asked l.symbols l.place.address) (l.body span b).2 := by
  cases b with
  | instruction form operands => exact moves_advance hl 2 span
  | constant name value =>
      show Moves (pure (l.constant name value)) _ _ (l.constant name value).1.place _ _
      rw [place_constant]
      exact .stay hl _ cause_of_constant
  | origin n =>
      show Moves (do let count ← gap? l.symbols l.place.address n; l.fillBy? count n.span) _ _ _ _ _
      rw [gap?_eq, pure_bind, fillBy?_eq hl fun k => small_of_gap]
      exact moves_advanceBy hl (fun d => cause_of_gap) n.span
  | bytes values =>
      have hcongr : l.body span (.bytes values) =
          l.advance (values.length % addressLimit) span := by
        unfold body advance
        rw [Place.advance_congr (Nat.mod_mod _ _)]
      rw [hcongr]
      exact moves_advance hl _ span
  | words values =>
      have hcongr : l.body span (.words values) =
          l.advance (2 * (values.length % addressLimit)) span := by
        unfold body advance
        rw [Place.advance_congr (Nat.mul_mod_mod _ _ _)]
      rw [hcongr, body?, within_advance?]
      exact moves_advance hl _ span
  | reserve n => exact moves_advanceBy hl (fun d => cause_of_reservation) span

/-- The number of bytes that the first pass takes a statement to ask for. -/
def askedBy (l : Layout) (s : Statement) : Nat :=
  match s.body with
  | some b => b.asked (l.behindLabel s).symbols l.place.address
  | none => 0

theorem moves_statement (hl : l.place.Sound) (s : Statement) :
    Moves (l.statement? s) (l.statement s) l.place (l.statement s).1.place (l.askedBy s)
      (l.statement s).2 := by
  unfold statement? askedBy behindLabel statement
  cases s.label with
  | none =>
      cases s.body with
      | none => exact .stay hl _ nofun
      | some b => exact (moves_body hl s.span b).map rfl
  | some label =>
      have hplace : (l.define label (Int64.ofNat l.place.address)).1.place = l.place :=
        (extends_define label _).2.2
      have hnext : (l.define label (Int64.ofNat l.place.address)).1.place.Sound := by
        rw [hplace]
        exact hl
      cases s.body with
      | none =>
          dsimp only
          rw [hplace]
          exact .stay hl _ (by simpa using cause_of_define l label _)
      | some b =>
          have hbody := (moves_body hnext s.span b).behind
            (cause_of_define l label (Int64.ofNat l.place.address))
          rw [hplace] at hbody
          exact hbody.map rfl

/-- The number of bytes that the first pass takes statements to ask for, one behind the other. -/
def asked (l : Layout) : List Statement → Nat
  | [] => 0
  | s :: ss => l.askedBy s + (l.statement s).1.asked ss

/-- **The first pass**, checked. -/
theorem moves_statements (hl : l.place.Sound) (ss : List Statement) :
    Moves (l.statements? ss) (l.statements ss) l.place (l.statements ss).1.place (l.asked ss)
      (l.statements ss).2 := by
  induction ss generalizing l with
  | nil => exact .stay hl _ nofun
  | cons s ss ih =>
      have hstep := moves_statement hl s
      exact hstep.bind hl ((ih hstep.sound).map rfl)

end Layout

/-! ### The second pass -/

namespace Output

variable {p : Place} {n m : Nat} {o : Output} {r : Except Trap Output}

theorem moves_ofBytes (hp : p.Sound) (bytes : List UInt8) (span : Span) :
    Moves (ofBytes? p bytes span) (ofBytes p bytes span) p (ofBytes p bytes span).place bytes.length
      (ofBytes p bytes span).diagnostics := by
  unfold ofBytes?
  rw [Place.fitting?_eq hp, pure_bind]
  exact (Asm.moves_advance hp bytes.length span).map rfl

theorem moves_reporting (h : Moves r o p o.place n o.diagnostics) {ds : List Diagnostic}
    (hds : ∀ d ∈ ds, d.cause ≠ .overflow) :
    Moves (reporting? ds r) (o.reporting ds) p (o.reporting ds).place n
      (o.reporting ds).diagnostics :=
  (h.behind hds).map rfl

theorem moves_andThen (hp : p.Sound) (h : Moves r o p o.place n o.diagnostics)
    {next? : Place → Except Trap Output} {next : Place → Output}
    (hnext : Moves (next? o.place) (next o.place) o.place (next o.place).place m
      (next o.place).diagnostics) :
    Moves (andThen? r next?) (o.andThen next) p (o.andThen next).place (n + m)
      (o.andThen next).diagnostics :=
  h.bind hp (hnext.map rfl)

end Output

section Code

variable {symbols : SymbolTable} {p : Place}

/-- What is wrong with an operand. -/
theorem cause_of_immediate (symbols : SymbolTable) (bits : Nat) (n : Node) :
    ∀ d ∈ (orReport 0 (immediate symbols bits n)).2, d.cause ≠ .overflow := by
  rw [reports_immediate]
  exact fun d hd => (isError_of_operandError? (Option.mem_toList.mp hd)).2

theorem cause_of_instructionWord {form : Form} {operands : List Node} :
    ∀ d ∈ (instructionWord symbols form operands).2, d.cause ≠ .overflow := by
  intro d hd
  have hreports : (instructionWord symbols form operands).2 = _ :=
    reports_slotValues symbols form.signature operands
  rw [hreports] at hd
  obtain ⟨x, -, hx⟩ := List.mem_filterMap.mp hd
  exact (isError_of_operandError? hx).2

theorem moves_encodeValues {bits k : Nat} {toBytes : UInt16 → List UInt8}
    (htoBytes : ∀ w, (toBytes w).length = k) (span : Span) (hp : p.Sound) (values : List Node) :
    Moves (encodeValues? symbols bits toBytes span p values)
      (encodeValues symbols bits toBytes span p values) p
      (encodeValues symbols bits toBytes span p values).place (k * values.length)
      (encodeValues symbols bits toBytes span p values).diagnostics := by
  induction values generalizing p with
  | nil => exact .stay hp _ nofun
  | cons n ns ih =>
      have hput := Output.moves_ofBytes hp (toBytes (orReport 0 (immediate symbols bits n)).1) span
      rw [htoBytes] at hput
      have hhead := Output.moves_reporting hput (cause_of_immediate symbols bits n)
      rw [List.length_cons, Nat.mul_succ, Nat.add_comm]
      unfold encodeValues? encodeValues
      dsimp only
      exact Output.moves_andThen hp hhead (ih hhead.sound)

theorem moves_encodeZeros (hp : p.Sound) {count : Except Diagnostic Nat}
    (hcount : ∀ n, count = .ok n → n ≤ addressSpace)
    (hcause : ∀ d, count = .error d → d.cause ≠ .overflow) (span : Span) :
    Moves (encodeZeros? p count span) (encodeZeros p count span) p (encodeZeros p count span).place
      (asked count) (encodeZeros p count span).diagnostics := by
  cases count with
  | ok n =>
      have hput := Output.moves_ofBytes hp (List.replicate (min n addressSpace) 0) span
      have hlength : (List.replicate (min n addressSpace) (0 : UInt8)).length = n := by
        rw [List.length_replicate, Nat.min_eq_left (hcount n rfl)]
      rw [hlength] at hput
      exact hput
  | error d => exact .stay hp _ fun e he => List.mem_singleton.mp he ▸ hcause d rfl

theorem moves_encodeBody (hp : p.Sound) (span : Span) (b : Body) :
    Moves (encodeBody? symbols span p b) (encodeBody symbols span p b) p
      (encodeBody symbols span p b).place (asked (b.count symbols p.address))
      (encodeBody symbols span p b).diagnostics := by
  cases b with
  | instruction form operands =>
      refine Output.moves_reporting (Output.moves_ofBytes hp _ span) fun d hd => ?_
      rcases List.mem_append.mp hd with hd | hd
      · exact (cause_of_mem_alignment hd).2
      · exact cause_of_instructionWord d hd
  | constant name value => exact .stay hp _ nofun
  | origin n =>
      rw [encodeBody?, gap?_eq, pure_bind]
      exact moves_encodeZeros hp (fun k => small_of_gap) (fun d => cause_of_gap) n.span
  | bytes values =>
      have hbyte : ∀ w : UInt16, [w.toUInt8].length = 1 := fun _ => rfl
      rw [Body.count, ← Nat.one_mul values.length]
      exact moves_encodeValues hbyte span hp values
  | words values => exact moves_encodeValues length_wordBytes span hp values
  | reserve n =>
      exact moves_encodeZeros hp (fun k => small_of_reservation)
        (fun d => cause_of_reservation) span

theorem moves_encodeStatement (symbols : SymbolTable) (hp : p.Sound) (s : Statement) :
    Moves (encodeStatement? symbols p s) (encodeStatement symbols p s) p
      (encodeStatement symbols p s).place (asked (s.count symbols p.address))
      (encodeStatement symbols p s).diagnostics := by
  unfold encodeStatement? encodeStatement Statement.count
  cases s.body with
  | none => exact .stay hp _ nofun
  | some b => exact moves_encodeBody hp s.span b

/-- The number of bytes that statements ask for, one behind the other. -/
def codeAsked (symbols : SymbolTable) (p : Place) : List Statement → Nat
  | [] => 0
  | s :: ss =>
      asked (s.count symbols p.address) + codeAsked symbols (encodeStatement symbols p s).place ss

/-- **The second pass**, checked. -/
theorem moves_encodeStatements (symbols : SymbolTable) (hp : p.Sound) (ss : List Statement) :
    Moves (encodeStatements? symbols p ss) (encodeStatements symbols p ss) p
      (encodeStatements symbols p ss).place (codeAsked symbols p ss)
      (encodeStatements symbols p ss).diagnostics := by
  induction ss generalizing p with
  | nil => exact .stay hp _ nofun
  | cons s ss ih =>
      have hstep := moves_encodeStatement symbols hp s
      exact Output.moves_andThen hp hstep (ih hstep.sound)

end Code

end Chip8.Asm
