import Chip8.Proofs.Asm.CheckedPasses

/-! # The range of addresses

How large the address of a pass gets, and what is noted when it leaves the address space.

* **First pass.** It asks for `Layout.asked` bytes and traps exactly if the address behind these is
  no 32-bit word. `overflowed_statements`: while no statement goes round the address alone, it notes
  that the address space was left exactly if it asks for more bytes than there are.
* **Second pass.** It is only there behind a first pass without an error, and asks for no more than
  the address space holds (`codeAsked_le`).
* `address_range` puts both together for sources. Nothing else can go wrong with an address, and it
  takes more statements than there are addresses. -/

namespace Chip8.Asm

/-! ### Bounds -/

/-- Leaving the address space is an error. -/
theorem overflows_errors (ds : List Diagnostic) :
    overflows ds = overflows (ds.filter Diagnostic.isError) := by
  unfold overflows
  rw [List.countP_filter]
  apply List.countP_congr
  intro d hd
  simp only [decide_eq_true_eq, Bool.and_eq_true, iff_self_and]
  intro hcause
  rw [Diagnostic.isError, Diagnostic.severity, hcause]
  rfl

theorem hasErrors_of_overflows {ds : List Diagnostic} (h : overflows ds ≠ 0) :
    hasErrors ds = true := by
  rw [← Bool.not_eq_false, noErrors_iff]
  intro hnone
  rw [overflows_errors, hnone] at h
  exact h rfl

/-- The statement asks for fewer bytes than there are addresses. -/
def Statement.IsShort (s : Statement) : Prop :=
  ∀ symbols a k, s.count symbols a = .ok k → k < addressSpace

theorem asked_ok (n : Nat) : asked (.ok n) = n := rfl

theorem asked_lt {bound : Nat} (hbound : 0 < bound) {count : Except Diagnostic Nat}
    (h : ∀ k, count = .ok k → k < bound) : asked count < bound := by
  cases count with
  | ok k => exact h k rfl
  | error d => exact hbound

/-- The length of a list as a 32-bit word is not more than the length. -/
theorem Body.asked_le (symbols : SymbolTable) (a : Nat) (b : Body) :
    b.asked symbols a ≤ Asm.asked (b.count symbols a) := by
  cases b with
  | bytes values => exact Nat.mod_le _ _
  | words values => exact Nat.mul_le_mul_left 2 (Nat.mod_le _ _)
  | _ => exact Nat.le_refl _

namespace Layout

variable {l : Layout} {s : Statement} {ss : List Statement}

theorem askedBy_lt {bound : Nat} (hbound : 0 < bound)
    (h : ∀ symbols a k, s.count symbols a = .ok k → k < bound) : l.askedBy s < bound := by
  unfold askedBy
  cases hbody : s.body with
  | none => exact hbound
  | some b =>
      refine Nat.lt_of_le_of_lt (Body.asked_le _ _ b) (asked_lt hbound fun k hk => ?_)
      refine h (l.behindLabel s).symbols l.place.address k ?_
      rw [Statement.count, hbody]
      exact hk

theorem askedBy_small (h : s.IsSmall) : addressSpace + l.askedBy s < addressLimit := by
  have hroom : l.askedBy s < addressLimit - addressSpace :=
    askedBy_lt (by decide) fun symbols a k hk => by
      have hcount := h symbols a k hk
      unfold addressLimit
      omega
  omega

theorem asked_append (l : Layout) (before after : List Statement) :
    l.asked (before ++ after) = l.asked before + (l.statements before).1.asked after := by
  induction before generalizing l with
  | nil => exact (Nat.zero_add _).symm
  | cons s before ih =>
      rw [List.cons_append, asked, asked, ih, Nat.add_assoc]
      rfl

/-- Short statements ask for less than so many address spaces. -/
theorem asked_short (h : ∀ s ∈ ss, s.IsShort) : l.asked ss ≤ ss.length * (addressSpace - 1) := by
  induction ss generalizing l with
  | nil => exact Nat.zero_le _
  | cons s ss ih =>
      have hhead : l.askedBy s < addressSpace := askedBy_lt (by decide) (h s List.mem_cons_self)
      have hrest := ih (l := (l.statement s).1) fun s' hs' => h s' (List.mem_cons_of_mem s hs')
      rw [asked, List.length_cons, Nat.succ_mul]
      omega

/-- **Leaving the address space** is noted exactly if more bytes are asked for than there are. -/
theorem overflowed_statements (hl : l.place.Sound) (h : ∀ s ∈ ss, s.IsSmall) :
    (l.statements ss).1.place.overflowed =
      (l.place.overflowed || decide (addressSpace < l.place.address + l.asked ss)) := by
  induction ss generalizing l with
  | nil =>
      show l.place.overflowed = _
      cases hover : l.place.overflowed with
      | true => rfl
      | false => simpa [asked] using hl.fits hover
  | cons s ss ih =>
      have hstep := moves_statement hl s
      have hrest := ih hstep.sound fun s' hs' => h s' (List.mem_cons_of_mem s hs')
      rw [hstep.past hl (askedBy_small (h s List.mem_cons_self))] at hrest
      exact hrest

end Layout

/-- **The second pass stays in the address space** where the first pass found no error. -/
theorem codeAsked_le {final : SymbolTable} {ss : List Statement} {l : Layout} {a : Nat}
    (hl : l.place = ⟨a, false⟩) (ha : a ≤ addressSpace) {p : Place} (hp : p.Sound)
    (hpa : p.address = a) (hsmall : ∀ s ∈ ss, s.IsSmall)
    (h : hasErrors (l.statements ss).2 = false)
    (hfinal : (l.statements ss).1.symbols.Extends final) :
    a + codeAsked final p ss ≤ addressSpace := by
  induction ss generalizing l a p with
  | nil => exact ha
  | cons s ss ih =>
      unfold Layout.statements at h hfinal
      rw [hasErrors_append, Bool.or_eq_false_iff] at h
      have hknown := (Layout.extends_all _ ss).trans hfinal
      obtain ⟨k, hk, hplace, hle⟩ := Layout.count_of_statement hl ha h.1 hknown
      have hfew := hsmall s List.mem_cons_self _ _ k hk
      rw [Nat.mod_eq_of_lt (by omega)] at hplace hle
      have hstep := moves_encodeStatement final hp s
      rw [hpa, hk, asked_ok] at hstep
      have haddress := hstep.address
      rw [hpa, addressLimit, Nat.mod_eq_of_lt (by omega)] at haddress
      have hrest := ih hplace hle hstep.sound haddress
        (fun s' hs' => hsmall s' (List.mem_cons_of_mem s hs')) h.2 hfinal
      rw [codeAsked, hpa, hk, asked_ok, ← Nat.add_assoc]
      exact hrest

/-! ### Sources -/

section Sources

variable {source : String} {origin : UInt16}

/-- Where the first pass over a source begins. -/
def firstLayout (source : String) (origin : UInt16) : Layout :=
  ⟨.ofOrigin origin, (parse source).symbols⟩

/-- What the first pass makes of a source. -/
def lastLayout (source : String) (origin : UInt16) : Layout × List Diagnostic :=
  (firstLayout source origin).statements (parse source).statements

/-- The address behind all that the statements of a source ask for, of whatever size. -/
def addressBehind (source : String) (origin : UInt16) : Nat :=
  origin.toNat + (firstLayout source origin).asked (parse source).statements

/-- The address behind all that the second pass puts. -/
def codeBehind (source : String) (origin : UInt16) : Nat :=
  origin.toNat +
    codeAsked (lastLayout source origin).1.symbols (.ofOrigin origin) (parse source).statements

theorem moves_source (source : String) (origin : UInt16) :
    Moves ((firstLayout source origin).statements? (parse source).statements)
      (lastLayout source origin) (.ofOrigin origin) (lastLayout source origin).1.place
      ((firstLayout source origin).asked (parse source).statements) (lastLayout source origin).2 :=
  Layout.moves_statements (Place.sound_ofOrigin origin) _

/-- Each pass traps where the address behind it does not fit, and nothing else does. -/
theorem assemble?_eq (hparse : hasErrors (parse source).diagnostics = false) :
    assemble? source origin =
      if addressBehind source origin < addressLimit ∧
          (hasErrors (lastLayout source origin).2 = false → codeBehind source origin < addressLimit)
      then .ok (assemble source origin) else .error .tooLarge := by
  have hfirst : Layout.statements? ⟨.ofOrigin origin, (parse source).symbols⟩
      (parse source).statements =
        if addressBehind source origin < addressLimit then .ok (lastLayout source origin)
        else .error .tooLarge := (moves_source source origin).checked
  have hsecond : encodeStatements? (lastLayout source origin).1.symbols (.ofOrigin origin)
      (parse source).statements =
        if codeBehind source origin < addressLimit then .ok _ else .error .tooLarge :=
    (moves_encodeStatements _ (Place.sound_ofOrigin origin) _).checked
  have hlast : Layout.statements ⟨.ofOrigin origin, (parse source).symbols⟩
      (parse source).statements = lastLayout source origin := rfl
  unfold assemble? assemble assembleParsed
  dsimp only
  rw [hfirst, hlast]
  simp only [hasErrors_append, hparse, Bool.false_or, Bool.false_eq_true, if_false]
  by_cases hn : addressBehind source origin < addressLimit
  · simp only [hn, if_true, true_and]
    cases herror : hasErrors (lastLayout source origin).2 with
    | true => simp [bind, Except.bind, pure, Except.pure, herror]
    | false =>
        simp only [bind, Except.bind, pure, Except.pure, herror, hsecond]
        by_cases hm : codeBehind source origin < addressLimit
        · simp [hm]
        · simp [hm]
  · simp only [hn, if_false, false_and]
    rfl

/-- Sources with bad lines are not laid out. -/
theorem assemble?_of_badLines (hparse : hasErrors (parse source).diagnostics = true) :
    assemble? source origin = .ok (assemble source origin) := by
  unfold assemble? assemble assembleParsed
  dsimp only
  rw [if_pos hparse, if_pos hparse]
  rfl

/-- What the first pass finds ends the assembly. -/
theorem assemble_of_firstErrors (hparse : hasErrors (parse source).diagnostics = false)
    (hfirst : hasErrors (lastLayout source origin).2 = true) :
    assemble source origin = .error (lastLayout source origin).2 := by
  have hlines := eq_nil_of_noErrors (fun _ => isError_of_mem_parse) hparse
  unfold assemble assembleParsed
  rw [hlines]
  exact if_pos hfirst

section Small

variable (hparse : hasErrors (parse source).diagnostics = false)
  (hsmall : ∀ s ∈ (parse source).statements, s.IsSmall)

include hsmall

theorem codeBehind_le (hnone : hasErrors (lastLayout source origin).2 = false) :
    codeBehind source origin ≤ addressSpace :=
  codeAsked_le rfl (Nat.le_of_lt origin.toNat_lt) (Place.sound_ofOrigin origin) rfl hsmall hnone
    (.refl _)

theorem overflows_lastLayout :
    overflows (lastLayout source origin).2 =
      if addressSpace < addressBehind source origin then 1 else 0 := by
  have hover : (lastLayout source origin).1.place.overflowed =
      (false || decide (addressSpace < addressBehind source origin)) :=
    Layout.overflowed_statements (Place.sound_ofOrigin origin) hsmall
  rw [(moves_source source origin).overflows_eq rfl, hover, Bool.false_or]
  split <;> simp [*]

theorem overflows_code (hnone : hasErrors (lastLayout source origin).2 = false) :
    overflows (encodeStatements (lastLayout source origin).1.symbols (.ofOrigin origin)
      (parse source).statements).diagnostics = 0 :=
  (moves_encodeStatements _ (Place.sound_ofOrigin origin) _).overflows_of_room rfl
    (codeBehind_le hsmall hnone)

include hparse

/-- The report is there once, however many statements follow. -/
theorem overflows_reported :
    overflows (reported (assemble source origin)) =
      if addressSpace < addressBehind source origin then 1 else 0 := by
  rw [← overflows_lastLayout hsmall]
  cases hlast : hasErrors (lastLayout source origin).2 with
  | true =>
      rw [assemble_of_firstErrors hparse hlast, reported]
  | false =>
      have hnone : (lastLayout source origin).2 = [] :=
        eq_nil_of_noErrors (Layout.isError_statements _) hlast
      rw [overflows_errors, (reported_assemble hparse hlast).1, ← overflows_errors, hnone]
      exact overflows_code hsmall hlast

end Small

/-- **The address space** is left where more is asked for than it holds, and this is reported once,
however much follows. Nothing goes wrong with the address but a sum that is no 32-bit word, in the
first pass and only if so much is asked for in all. Behind the origin there is room for as many
statements as there are addresses, if each of them asks for less than all addresses; the source may
be anything that does not itself have a length beyond 32 bits. -/
theorem address_range (source : String) (origin : UInt16) :
    (assemble? source origin = .ok (assemble source origin) ∨
        assemble? source origin = .error .tooLarge) ∧
      (hasErrors (parse source).diagnostics = false →
        ((firstLayout source origin).statements? (parse source).statements =
          if addressBehind source origin < addressLimit then .ok (lastLayout source origin)
          else .error .tooLarge) ∧
        (lastLayout source origin).1.place.address = addressBehind source origin % addressLimit ∧
        (source.length + addressSpace < addressLimit →
          (assemble? source origin = .error .tooLarge ↔
            addressLimit ≤ addressBehind source origin) ∧
          overflows (reported (assemble source origin)) =
            if addressSpace < addressBehind source origin then 1 else 0)) ∧
      ((parse source).statements.length ≤ addressSpace →
        (∀ s ∈ (parse source).statements, s.IsShort) →
          addressBehind source origin < addressLimit) := by
  refine ⟨?_, fun hparse => ⟨(moves_source source origin).checked,
    (moves_source source origin).address, fun hsize => ⟨?_, ?_⟩⟩, fun hlength hshort => ?_⟩
  · cases hparse : hasErrors (parse source).diagnostics with
    | true => exact .inl (assemble?_of_badLines hparse)
    | false =>
        rw [assemble?_eq hparse]
        split
        · exact .inl rfl
        · exact .inr rfl
  · have hsmall : ∀ s ∈ (parse source).statements, s.IsSmall :=
      fun s => isSmall_of_mem_parse hparse hsize
    have hcode : hasErrors (lastLayout source origin).2 = false →
        codeBehind source origin < addressLimit :=
      fun hnone => Nat.lt_of_le_of_lt (codeBehind_le hsmall hnone) (by decide)
    rw [assemble?_eq hparse]
    split
    · rename_i hfits
      exact iff_of_false nofun (Nat.not_le_of_lt hfits.1)
    · rename_i hlarge
      exact iff_of_true rfl (Nat.le_of_not_lt fun hlt => hlarge ⟨hlt, hcode⟩)
  · exact overflows_reported hparse fun s => isSmall_of_mem_parse hparse hsize
  · have hasked := Layout.asked_short (l := firstLayout source origin) hshort
    have horigin := origin.toNat_lt
    have hbound := Nat.mul_le_mul_right (addressSpace - 1) hlength
    unfold addressBehind
    unfold addressSpace at hasked hbound
    unfold addressLimit
    omega

end Sources

/-- A reservation that leaves one address short of the end, and bytes that go on behind it. -/
def leavingSource : String := ".reserve 65023\n.byte 1, 2\n"

theorem address_range_leaving :
    assemble? leavingSource 0x200 = .ok (assemble leavingSource 0x200) ∧
      overflows (reported (assemble leavingSource 0x200)) = 1 ∧
      (lastLayout leavingSource 0x200).1.place.address = 0x10001 ∧
      addressBehind leavingSource 0x200 < addressLimit := by
  have hparse : hasErrors (parse leavingSource).diagnostics = false := by decide +kernel
  have hbehind : addressBehind leavingSource 0x200 = 0x10001 := by decide +kernel
  have hread : (parse leavingSource).statements =
      [⟨none, some (.reserve (.number 65023 ⟨9, 5⟩)), none, ⟨0, 14⟩⟩,
        ⟨none, some (.bytes [.number 1 ⟨21, 1⟩, .number 2 ⟨24, 1⟩]), none, ⟨15, 10⟩⟩] := rfl
  have hshort : ∀ s ∈ (parse leavingSource).statements, s.IsShort := by
    rw [hread]
    simp only [List.forall_mem_cons, List.not_mem_nil, false_imp_iff, implies_true, and_true]
    constructor
    · intro symbols a k hk
      have hcount : reservation symbols (.number 65023 ⟨9, 5⟩) = .ok 65023 := rfl
      cases hcount.symm.trans hk
      decide
    · intro symbols a k hk
      cases hk
      decide
  obtain ⟨hresult, hfirst, hfew⟩ := address_range leavingSource 0x200
  obtain ⟨-, haddress, hsource⟩ := hfirst hparse
  obtain ⟨htrap, hcount⟩ := hsource (by decide)
  rw [hbehind] at haddress htrap hcount
  exact ⟨hresult.resolve_right fun h => absurd (htrap.mp h) (by decide), hcount, haddress,
    hfew (by rw [hread]; decide) hshort⟩

/-! ### Going round -/

section Reservations

/-- The name of a number of bytes. -/
def reserved : Identifier := ⟨['R'], rfl⟩

/-- The table of a name before and behind its definition. -/
def reservedSymbols (value : Option Int64) : SymbolTable :=
  ⟨[⟨reserved, .constant, ⟨5, 1⟩, value, false⟩]⟩

/-- Lines one behind the other, each with its newline. -/
def textOfLines (ls : List String) : List Char := ls.flatMap fun l => l.toList ++ ['\n']

/-- A constant, reservations of this size, and an origin that lies below all of them. -/
def spaciousSource (n : Nat) : String :=
  String.ofList
    (textOfLines (".equ R, 65535" :: (List.replicate n ".reserve R" ++ [".origin 4096"])))

/-- A reservation of all addresses but one. -/
def Statement.Reserves (s : Statement) : Prop :=
  s.label = none ∧ ∃ span, s.body = some (.reserve (.name reserved span))

theorem linesFrom_textOfLines (o : Nat) (l : String) (hl : '\n' ∉ l.toList)
    (ls : List String) :
    linesFrom o (textOfLines (l :: ls)) =
      ⟨o, l.toList, true⟩ :: linesFrom (o + byteLength l.toList + 1) (textOfLines ls) := by
  have htext : textOfLines (l :: ls) = l.toList ++ '\n' :: textOfLines ls := by
    simp [textOfLines]
  rw [htext, linesFrom_newline fun c hc heq => hl (heq ▸ hc)]
  rfl

/-- Lines of reservations are read one by one. -/
theorem parseLines_reservations (t : SymbolTable) (n o : Nat) :
    ∃ ss last span,
      parseLines ⟨t, []⟩
          (linesFrom o (textOfLines (List.replicate n ".reserve R" ++ [".origin 4096"]))) =
        ⟨ss ++ [last], t, []⟩ ∧
      ss.length = n ∧ (∀ s ∈ ss, s.Reserves) ∧
      last.label = none ∧ last.body = some (.origin (.number 4096 span)) := by
  induction n generalizing o with
  | zero =>
      have hread : ∃ s span, parseLine ⟨t, []⟩ ⟨o, ".origin 4096".toList, true⟩ =
          ⟨⟨t, []⟩, [], some s⟩ ∧ s.label = none ∧ s.body = some (.origin (.number 4096 span)) :=
        ⟨_, _, rfl, rfl, rfl⟩
      obtain ⟨s, span, hline, hlabel, hbody⟩ := hread
      refine ⟨[], s, span, ?_, rfl, nofun, hlabel, hbody⟩
      rw [List.replicate_zero, List.nil_append, linesFrom_textOfLines o _ (by decide), parseLines,
        hline]
      rfl
  | succ n ih =>
      have hread : ∃ s span, parseLine ⟨t, []⟩ ⟨o, ".reserve R".toList, true⟩ =
          ⟨⟨t, []⟩, [], some s⟩ ∧ s.label = none ∧ s.body = some (.reserve (.name reserved span)) :=
        ⟨_, _, rfl, rfl, rfl⟩
      obtain ⟨s, span, hline, hlabel, hbody⟩ := hread
      obtain ⟨ss, last, span', hrest, hlength, hss, hlast⟩ :=
        ih (o + byteLength ".reserve R".toList + 1)
      refine ⟨s :: ss, last, span', ?_, congrArg Nat.succ hlength, ?_, hlast⟩
      · rw [List.replicate_succ, List.cons_append, linesFrom_textOfLines o _ (by decide),
          parseLines, hline, hrest]
        rfl
      · exact List.forall_mem_cons.mpr ⟨⟨hlabel, span, hbody⟩, hss⟩

theorem parse_spaciousSource (n : Nat) :
    ∃ first ss last span span',
      parse (spaciousSource n) = ⟨first :: (ss ++ [last]), reservedSymbols none, []⟩ ∧
      first.label = none ∧
      first.body = some (.constant ⟨reserved, ⟨5, 1⟩⟩ (.number 65535 span)) ∧
      ss.length = n ∧ (∀ s ∈ ss, s.Reserves) ∧
      last.label = none ∧ last.body = some (.origin (.number 4096 span')) := by
  have hread : ∃ s span, parseLine .empty ⟨0, ".equ R, 65535".toList, true⟩ =
      ⟨⟨reservedSymbols none, []⟩, [], some s⟩ ∧ s.label = none ∧
      s.body = some (.constant ⟨reserved, ⟨5, 1⟩⟩ (.number 65535 span)) :=
    ⟨_, _, rfl, rfl, rfl⟩
  obtain ⟨s, span, hline, hlabel, hbody⟩ := hread
  obtain ⟨ss, last, span', hrest, hlength, hss, hlast⟩ :=
    parseLines_reservations (reservedSymbols none) n (0 + byteLength ".equ R, 65535".toList + 1)
  refine ⟨s, ss, last, span, span', ?_, hlabel, hbody, hlength, hss, hlast⟩
  rw [parse, lines, spaciousSource, String.toList_ofList, linesFrom_textOfLines 0 _ (by decide),
    parseLines, hline, hrest]
  rfl

variable {l : Layout} {s : Statement} {ss : List Statement}

/-- A statement with no list of values is small. -/
theorem isSmall_of_only (h : (∃ name value, s.body = some (.constant name value)) ∨
    (∃ n, s.body = some (.origin n)) ∨ ∃ n, s.body = some (.reserve n)) : s.IsSmall := by
  intro symbols a k hk
  have hle : k ≤ addressSpace := by
    unfold Statement.count at hk
    rcases h with ⟨name, value, hbody⟩ | ⟨n, hbody⟩ | ⟨n, hbody⟩
    · rw [hbody] at hk
      cases hk
      exact Nat.zero_le _
    · rw [hbody] at hk
      exact small_of_gap hk
    · rw [hbody] at hk
      exact small_of_reservation hk
  unfold addressSpace at hle ⊢
  omega

/-- A statement without a label is its body. -/
theorem statement_bare {b : Body} (hlabel : s.label = none) (hbody : s.body = some b) :
    l.statement s = l.body s.span b ∧ l.askedBy s = b.asked l.symbols l.place.address := by
  constructor
  · simp only [Layout.statement, hlabel, hbody, List.nil_append]
  · simp only [Layout.askedBy, Layout.behindLabel, Layout.statement, hlabel, hbody]

theorem reservation_reserved (span : Span) :
    reservation (reservedSymbols (some 65535)) (.name reserved span) = .ok 65535 := rfl

theorem cause_of_advance {n : Nat} {span : Span} :
    ∀ d ∈ (l.advance n span).2, d.cause = .overflow := by
  unfold Layout.advance Place.advance
  dsimp only
  split
  · simp
  · simp

theorem statements_reservations (hl : l.symbols = reservedSymbols (some 65535))
    (hss : ∀ s ∈ ss, s.Reserves) :
    l.asked ss = ss.length * 65535 ∧
      (l.statements ss).1.symbols = reservedSymbols (some 65535) ∧
      ∀ d ∈ (l.statements ss).2, d.cause = .overflow := by
  induction ss generalizing l with
  | nil => exact ⟨(Nat.zero_mul _).symm, hl, nofun⟩
  | cons s ss ih =>
      obtain ⟨hlabel, span, hbody⟩ := hss s List.mem_cons_self
      obtain ⟨hstatement, hasked⟩ := statement_bare (l := l) hlabel hbody
      simp only [Layout.body, hl, reservation_reserved, Layout.advanceBy] at hstatement
      simp only [Body.asked, Body.count, hl, reservation_reserved, asked_ok] at hasked
      have hnext : (l.statement s).1.symbols = reservedSymbols (some 65535) := by
        rw [hstatement, Layout.symbols_advance, hl]
      obtain ⟨hrest, hsymbols, hreports⟩ :=
        ih hnext fun s' hs' => hss s' (List.mem_cons_of_mem s hs')
      refine ⟨?_, hsymbols, fun d hd => ?_⟩
      · rw [Layout.asked, hasked, hrest, List.length_cons, Nat.succ_mul, Nat.add_comm]
      · change d ∈ (l.statement s).2 ++ _ at hd
        rcases List.mem_append.mp hd with hd | hd
        · rw [hstatement] at hd
          exact cause_of_advance d hd
        · exact hreports d hd

/-- A constant takes no room. -/
theorem statement_constant {p : Place} {span : Span} (hlabel : s.label = none)
    (hbody : s.body = some (.constant ⟨reserved, ⟨5, 1⟩⟩ (.number 65535 span))) :
    Layout.statement ⟨p, reservedSymbols none⟩ s = (⟨p, reservedSymbols (some 65535)⟩, []) ∧
      Layout.askedBy ⟨p, reservedSymbols none⟩ s = 0 :=
  statement_bare hlabel hbody

/-- What the first pass makes of reservations, and of an origin behind them that lies at the address
which they lead to, or in front of it. -/
theorem statements_spacious (hl : l.place.Sound)
    (hsymbols : l.symbols = reservedSymbols (some 65535)) (hss : ∀ s ∈ ss, s.Reserves)
    (haddress : (l.place.address + ss.length * 65535) % addressLimit = 511) {last : Statement}
    {span : Span} (hlabel : last.label = none)
    (hbody : last.body = some (.origin (.number 4096 span))) :
    l.asked (ss ++ [last]) = ss.length * 65535 + 3585 ∧
      (l.statements (ss ++ [last])).1.place.address = 4096 ∧
      ∀ d ∈ (l.statements (ss ++ [last])).2, d.cause = .overflow := by
  obtain ⟨hasked, hbehind, hreports⟩ := statements_reservations hsymbols hss
  have hplace : (l.statements ss).1.place.address = 511 := by
    rw [(Layout.moves_statements hl ss).address, hasked, haddress]
  have hgap : gap (l.statements ss).1.symbols (l.statements ss).1.place.address
      (.number 4096 span) = .ok 3585 := by
    rw [hplace]
    rfl
  obtain ⟨hstatement, hlast⟩ := statement_bare (l := (l.statements ss).1) hlabel hbody
  simp only [Layout.body, hgap, Layout.advanceBy] at hstatement
  simp only [Body.asked, Body.count, hgap, asked_ok] at hlast
  refine ⟨?_, ?_, ?_⟩
  · rw [Layout.asked_append, hasked, Layout.asked, hlast]
    rfl
  · rw [Layout.statements_append]
    show ((l.statements ss).1.statement last).1.place.address = 4096
    rw [hstatement, (Layout.moves_advance (Layout.moves_statements hl ss).sound _ _).address,
      hplace]
    rfl
  · intro d hd
    rw [Layout.reports_append] at hd
    rcases List.mem_append.mp hd with hd | hd
    · exact hreports d hd
    · change d ∈ ((l.statements ss).1.statement last).2 ++ [] at hd
      rw [List.append_nil, hstatement] at hd
      exact cause_of_advance d hd

/-- **Going round.** The reservations leave the address space, and then the 32-bit word of the
address, which begins at zero again. So an origin far below them is taken for one in front. -/
theorem address_goes_round :
    assemble? (spaciousSource 65537) 0x200 = .error .tooLarge ∧
      (reported (assemble (spaciousSource 65537) 0x200)).map Diagnostic.cause = [.overflow] ∧
      addressBehind (spaciousSource 65537) 0x200 = 0x200 + 65537 * 65535 + 3585 ∧
      (lastLayout (spaciousSource 65537) 0x200).1.place.address = 4096 := by
  obtain ⟨first, ss, last, span, span', hread, hlabel, hbody, hlength, hss, hlabel', hbody'⟩ :=
    parse_spaciousSource 65537
  obtain ⟨hconstant, hzero⟩ := statement_constant (p := .ofOrigin 0x200) hlabel hbody
  obtain ⟨hasked, haddress, hreports⟩ :=
    statements_spacious (l := ⟨.ofOrigin 0x200, reservedSymbols (some 65535)⟩)
      (Place.sound_ofOrigin _) rfl hss (by rw [hlength]; decide) hlabel' hbody'
  have hparse : hasErrors (parse (spaciousSource 65537)).diagnostics = false := by
    rw [hread]
    rfl
  have hlast : lastLayout (spaciousSource 65537) 0x200 =
      Layout.statements ⟨.ofOrigin 0x200, reservedSymbols (some 65535)⟩ (ss ++ [last]) := by
    rw [lastLayout, firstLayout, hread]
    show (let next := Layout.statement ⟨.ofOrigin 0x200, reservedSymbols none⟩ first
      let rest := next.1.statements (ss ++ [last])
      (rest.1, next.2 ++ rest.2)) = _
    rw [hconstant]
    rfl
  have hbehind : addressBehind (spaciousSource 65537) 0x200 = 0x200 + 65537 * 65535 + 3585 := by
    rw [addressBehind, firstLayout, hread]
    show _ + (Layout.askedBy _ first + Layout.asked (Layout.statement _ first).1 (ss ++ [last])) = _
    rw [hzero, hconstant, hasked, hlength]
    rfl
  have hsmall : ∀ s ∈ (parse (spaciousSource 65537)).statements, s.IsSmall := by
    rw [hread]
    intro s hs
    rcases List.mem_cons.mp hs with rfl | hs
    · exact isSmall_of_only (.inl ⟨_, _, hbody⟩)
    · rcases List.mem_append.mp hs with hs | hs
      · obtain ⟨-, span, hbody⟩ := hss s hs
        exact isSmall_of_only (.inr (.inr ⟨_, hbody⟩))
      · obtain rfl := List.mem_singleton.mp hs
        exact isSmall_of_only (.inr (.inl ⟨_, hbody'⟩))
  -- All that is reported is the one report of leaving the address space.
  have hone : overflows (lastLayout (spaciousSource 65537) 0x200).2 = 1 := by
    rw [overflows_lastLayout hsmall, hbehind, if_pos (by decide)]
  have hcauses :
      (lastLayout (spaciousSource 65537) 0x200).2.map Diagnostic.cause = [.overflow] := by
    rw [← hlast] at hreports
    have hall := List.countP_eq_length.mpr fun d hd => decide_eq_true (hreports d hd)
    obtain ⟨d, hd⟩ := List.length_eq_one_iff.mp (hall.symm.trans hone)
    rw [hd] at hreports ⊢
    rw [List.map_singleton, hreports d (List.mem_singleton.mpr rfl)]
  have herror : hasErrors (lastLayout (spaciousSource 65537) 0x200).2 = true :=
    hasErrors_of_overflows (by rw [hone]; decide)
  refine ⟨?_, ?_, hbehind, ?_⟩
  · rw [assemble?_eq hparse, hbehind, if_neg fun h => absurd h.1 (by decide)]
  · rw [assemble_of_firstErrors hparse herror, reported, hcauses]
  · rw [hlast]
    exact haddress

end Reservations

end Chip8.Asm
