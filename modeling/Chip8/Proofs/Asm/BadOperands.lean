import Chip8.Proofs.Asm.NameSpaces
import Chip8.Proofs.Asm.Passes
import Chip8.Proofs.Asm.Reports
import Mathlib.Algebra.GroupWithZero.Nat

/-! # Bad operands

Behind an address pass without an error, what can still be wrong are the operands that become words,
and each of these is reported on its own.

* **Runs.** `reports_encodeStatements`: the second pass goes over the statements as the first one did,
  and the errors that it finds are those of the operands, whatever is wrong in front of them.
* **Room.** It leaves the address space only if the first pass did, or if a statement asks for so many
  bytes that the 32-bit address of the first pass went round (`Statement.IsSmall`). For that a source
  has to have nearly four gigabytes (`isSmall_of_mem_parse`).
* `bad_operands_reported` says what this means for sources. -/

namespace Chip8.Asm

/-! ### Runs -/

/-- Behind every address there is room to count the bytes that a statement asks for. -/
def Statement.IsSmall (s : Statement) : Prop :=
  ∀ symbols a k, s.count symbols a = .ok k → addressSpace + k < 0x100000000

/-- What is wrong with the operands of statements. -/
def badOperands (symbols : SymbolTable) (ss : List Statement) : List Diagnostic :=
  (ss.flatMap Statement.immediates).filterMap fun (bits, n) => operandError? symbols bits n

theorem badOperands_cons (symbols : SymbolTable) (s : Statement) (ss : List Statement) :
    badOperands symbols (s :: ss) = s.badOperands symbols ++ badOperands symbols ss := by
  rw [badOperands, List.flatMap_cons, List.filterMap_append]
  rfl

/-- What a run of the second pass reports, and how far it moves, beside a run of the first one. -/
structure Accounts (final : SymbolTable) (l : Layout) (p : Place) (ss : List Statement) (n : Nat)
    (ds : List Diagnostic) : Prop where
  reports : (encodeStatements final p ss).Reports p n ds
  errors : ds.filter Diagnostic.isError = badOperands final ss
  address : (p.address + n) % 0x100000000 = (l.statements ss).1.place.address
  fits : (∀ s ∈ ss, s.IsSmall) → p.address + n ≤ addressSpace

/-- **A run of the second pass** behind a run of the first one without an error. -/
theorem reports_encodeStatements {final : SymbolTable} {ss : List Statement} {l : Layout} {a : Nat}
    (hl : l.place = ⟨a, false⟩) (ha : a ≤ addressSpace) {p : Place} (hp : p.address = a)
    (h : hasErrors (l.statements ss).2 = false)
    (hfinal : (l.statements ss).1.symbols.Extends final) :
    ∃ n ds, Accounts final l p ss n ds := by
  have hspace : addressSpace = 0x10000 := rfl
  induction ss generalizing l a p with
  | nil =>
      refine ⟨0, [], .nothing (by omega), rfl, ?_, fun _ => by omega⟩
      rw [Layout.statements, hl, Nat.add_zero, hp, Nat.mod_eq_of_lt (by omega)]
  | cons s ss ih =>
      unfold Layout.statements at h hfinal
      rw [hasErrors_append, Bool.or_eq_false_iff] at h
      have hknown := (Layout.extends_all _ ss).trans hfinal
      obtain ⟨k, hk, hplace, hle⟩ := Layout.count_of_statement hl ha h.1 hknown
      have hhead := reports_encodeStatement (by omega) (hp ▸ hk)
      obtain ⟨n, ds, hrest⟩ := ih hplace hle (hhead.address.trans (by rw [hp])) h.2 hfinal
      refine ⟨k + n, _ ++ ds, hhead.andThen hrest.reports, ?_, ?_, fun hsmall => ?_⟩
      · rw [List.filter_append, errors_of_statement, hrest.errors, badOperands_cons]
      · have haddress := hrest.address
        rw [hhead.address, Nat.mod_add_mod, Nat.add_assoc] at haddress
        exact haddress
      · have hfits := hrest.fits fun s' hs' => hsmall s' (List.mem_cons_of_mem s hs')
        have hcount := hsmall s List.mem_cons_self _ _ _ hk
        rw [hhead.address, Nat.mod_eq_of_lt (by omega)] at hfits
        omega

/-! ### Room -/

theorem length_tokensFrom_le (skip offset : Nat) (cs : List Char) :
    (tokensFrom skip offset cs).length ≤ cs.length := by
  induction cs generalizing skip offset with
  | nil => exact Nat.le_refl 0
  | cons c cs ih =>
      rw [List.length_cons, tokensFrom.eq_def]
      dsimp only
      split
      · exact Nat.le_succ_of_le (ih _ _)
      · split
        · exact Nat.le_succ_of_le (ih _ _)
        · exact Nat.succ_le_succ (ih _ _)

theorem length_chars_le {offset : Nat} {cs : List Char} {l : Line} (hl : l ∈ linesFrom offset cs) :
    l.chars.length ≤ cs.length := by
  induction cs generalizing offset l with
  | nil =>
      rw [linesFrom, List.mem_singleton] at hl
      subst hl
      exact Nat.le_refl 0
  | cons c cs ih =>
      rw [linesFrom] at hl
      split at hl
      · rcases List.mem_cons.mp hl with rfl | hl
        · exact Nat.zero_le _
        · exact Nat.le_succ_of_le (ih hl)
      · split at hl
        · rename_i m ls hlines
          rcases List.mem_cons.mp hl with rfl | hl
          · exact Nat.succ_le_succ (ih (hlines ▸ List.mem_cons_self))
          · exact Nat.le_succ_of_le (ih (hlines ▸ List.mem_cons_of_mem m hl))
        · cases hl

theorem length_tokens_le {source : String} {l : Line} (hl : l ∈ lines source) :
    l.tokens.length ≤ source.length := by
  calc l.tokens.length ≤ l.code.length := length_tokensFrom_le 0 l.offset l.code
    _ ≤ l.chars.length := (List.takeWhile_sublist _).length_le
    _ ≤ source.length := length_chars_le hl

/-- Every token belongs to a piece or is the comma behind one. -/
theorem sum_pieces (stop : Token) (ts : List Token) :
    ((pieces stop ts).map fun p => p.tokens.length + 1).sum = ts.length + 1 := by
  induction ts with
  | nil => rfl
  | cons t ts ih =>
      rw [pieces]
      split
      · simp only [List.map_cons, List.sum_cons, ih, List.length_nil, List.length_cons]
        omega
      · split
        · rename_i p ps hpieces
          rw [hpieces] at ih
          simp only [List.map_cons, List.sum_cons, List.length_cons] at ih ⊢
          omega
        · rename_i hpieces
          rw [hpieces] at ih
          cases ih

theorem tokens_ne_nil_of_readValue {aliases : Aliases} {p : Piece} {n : Node} {rest : List Token}
    (h : readValue aliases p = .ok (n, rest)) : 0 < p.tokens.length := by
  rw [List.length_pos_iff]
  intro hempty
  unfold readValue readTree readExpression at h
  rw [hempty] at h
  split at h
  · cases h
  · cases h

/-- Every value has a token, and all but the last one have a comma behind them. -/
theorem length_readPieces_le {aliases : Aliases} {stop : Token} {ts : List Token} {ns : List Node}
    (h : readPieces (readValue aliases) (pieces stop ts) = .ok (ns, none)) :
    2 * ns.length ≤ ts.length + 1 := by
  rw [← sum_pieces stop ts]
  have hread := read_of_readPieces h
  clear h
  generalize pieces stop ts = ps at hread
  induction hread with
  | nil => exact Nat.zero_le _
  | cons hn _ ih =>
      have hpos := tokens_ne_nil_of_readValue hn
      simp only [List.map_cons, List.sum_cons, List.length_cons] at ih ⊢
      omega

theorem small_of_gap {symbols : SymbolTable} {a k : Nat} {n : Node} (h : gap symbols a n = .ok k) :
    k ≤ addressSpace := by
  obtain ⟨v, -, -, hv, rfl⟩ := gap_eq_ok h
  omega

theorem small_of_reservation {symbols : SymbolTable} {k : Nat} {n : Node}
    (h : reservation symbols n = .ok k) : k ≤ addressSpace := by
  obtain ⟨v, -, -, hv, rfl⟩ := reservation_eq_ok h
  omega

theorem count_le_of_readDirective {scope scope' : Scope} {stop name : Token} {ts : List Token}
    {b : Body} (h : readDirective scope stop name ts = .ok (scope', some b, none))
    {symbols : SymbolTable} {a k : Nat} (hk : b.count symbols a = .ok k) :
    k ≤ max addressSpace (ts.length + 1) := by
  cases readDirective_eq_ok.mp h with
  | constant _ hread =>
      obtain ⟨t, ts₁, i, comma, ts₂, n, rfl, -⟩ := readConstant_eq_ok.mp hread
      cases hk
      exact Nat.zero_le _
  | only hname _ =>
      rcases hname with ⟨-, rfl⟩ | ⟨-, rfl⟩
      · exact (small_of_gap hk).trans (Nat.le_max_left _ _)
      · exact (small_of_reservation hk).trans (Nat.le_max_left _ _)
  | all hname hns =>
      have hle := length_readPieces_le hns
      rcases hname with ⟨-, rfl⟩ | ⟨-, rfl⟩
      all_goals
        cases hk
        omega

/-- A body asks for no more bytes than there are addresses, or than it has tokens. -/
theorem count_le_of_readBody {scope scope' : Scope} {stop : Token} {ts : List Token} {b : Body}
    (h : readBody scope stop ts = .ok (scope', some b, none)) {symbols : SymbolTable} {a k : Nat}
    (hk : b.count symbols a = .ok k) : k ≤ max addressSpace ts.length := by
  rcases readBody_cases h with
    ⟨-, hnone, -⟩ | ⟨t, us, rfl, ⟨-, -, c, hc, hread⟩ | ⟨-, hread⟩⟩
  · cases hnone
  · cases hc
    obtain ⟨form, ns, rfl, -⟩ := readInstruction_eq_ok.mp hread
    cases hk
    exact Nat.le_trans (by decide) (Nat.le_max_left _ _)
  · exact count_le_of_readDirective hread hk

theorem length_splitLabel_le (ts : List Token) : (splitLabel ts).2.length ≤ ts.length := by
  unfold splitLabel
  split
  · split
    · exact Nat.le_succ_of_le (Nat.le_succ _)
    · exact Nat.le_refl _
  · exact Nat.le_refl _

/-- A statement of a source is one that some line of it says. -/
theorem line_of_mem_parseLines {scope : Scope} {ls : List Line} {s : Statement}
    (hs : s ∈ (parseLines scope ls).statements) :
    ∃ before l after, ls = before ++ l :: after ∧
      (parseLine (scope.behind before) l).statement = some s := by
  induction ls generalizing scope with
  | nil => cases hs
  | cons l ls ih =>
      rcases List.mem_append.mp hs with hs | hs
      · exact ⟨[], l, ls, rfl, Option.mem_toList.mp hs⟩
      · obtain ⟨before, l', after, rfl, hl'⟩ := ih hs
        exact ⟨l :: before, l', after, rfl, hl'⟩

/-- **The statements of a source** of less than four gigabytes, but for as many bytes as there are
addresses, are small. -/
theorem isSmall_of_mem_parse {source : String} (hok : hasErrors (parse source).diagnostics = false)
    (hsize : source.length + addressSpace < 0x100000000) {s : Statement}
    (hs : s ∈ (parse source).statements) : s.IsSmall := by
  intro symbols a k hk
  have hspace : addressSpace = 0x10000 := rfl
  obtain ⟨before, l, after, hlines, hstatement⟩ := line_of_mem_parseLines hs
  obtain ⟨above, below, label, body, -, hread, hl⟩ :=
    body_of_noErrors (line_of_source hlines hok).1
  have hbody : s.body = body := body_of_statementOf? (hl.symm.trans hstatement)
  unfold Statement.count at hk
  rw [hbody] at hk
  cases body with
  | none =>
      cases hk
      omega
  | some b =>
      have hcount := count_le_of_readBody hread hk
      have hrest := length_splitLabel_le l.tokens
      have htokens : l.tokens.length ≤ source.length :=
        length_tokens_le (hlines ▸ List.mem_append_right _ List.mem_cons_self)
      omega

/-! ### Sources -/

/-- What is reported about a source, be it assembled or not. -/
def reported : Except (List Diagnostic) Program → List Diagnostic
  | .error ds => ds
  | .ok p => p.notes

theorem Layout.reports_append (l : Layout) (before after : List Statement) :
    (l.statements (before ++ after)).2 =
      (l.statements before).2 ++ ((l.statements before).1.statements after).2 := by
  induction before generalizing l with
  | nil => rfl
  | cons s before ih =>
      show (l.statement s).2 ++ ((l.statement s).1.statements (before ++ after)).2 = _
      rw [ih, ← List.append_assoc]
      rfl

theorem errors_unusedLabels (t : SymbolTable) :
    (unusedLabels t).filter Diagnostic.isError = [] := by
  rw [List.filter_eq_nil_iff]
  intro d hd
  obtain ⟨symbol, -, rfl⟩ := List.mem_map.mp hd
  simp [Diagnostic.isError, Diagnostic.severity, Cause.severity]

theorem noErrors_iff (ds : List Diagnostic) :
    hasErrors ds = false ↔ ds.filter Diagnostic.isError = [] := by
  simp [hasErrors, List.filter_eq_nil_iff]

theorem code_of_operandError? {symbols : SymbolTable} {bits : Nat} {n : Node} {d : Diagnostic}
    (h : operandError? symbols bits n = some d) :
    d.cause.code = "asm::eval" ∨ d.cause.code = "asm::range" := by
  unfold operandError? at h
  split at h
  · cases h
    exact Or.inl rfl
  · split at h
    · cases h
    · cases h
      exact Or.inr rfl

section Sources

variable {source : String} {origin : UInt16}
  (hparse : hasErrors (parse source).diagnostics = false)
  (hfirst : hasErrors (Layout.statements ⟨.ofOrigin origin, (parse source).symbols⟩
    (parse source).statements).2 = false)

include hparse hfirst

/-- What is wrong with a source behind the first pass is what the second pass finds. -/
theorem reported_assemble :
    (reported (assemble source origin)).filter Diagnostic.isError =
        (encodeStatements (Layout.statements ⟨.ofOrigin origin, (parse source).symbols⟩
          (parse source).statements).1.symbols (.ofOrigin origin)
            (parse source).statements).diagnostics.filter Diagnostic.isError ∧
      ((∃ p, assemble source origin = .ok p) ↔
        (reported (assemble source origin)).filter Diagnostic.isError = []) := by
  have hreports := eq_nil_of_noErrors (fun _ => isError_of_mem_parse) hparse
  have hlayout := eq_nil_of_noErrors (Layout.isError_statements _) hfirst
  unfold assemble assembleParsed
  rw [hreports]
  dsimp only
  rw [hlayout, if_neg (by simp [hasErrors]), if_neg (by simp [hasErrors]), List.nil_append,
    List.nil_append]
  split
  · rename_i herror
    refine ⟨by rw [reported, List.filter_append, errors_unusedLabels, List.append_nil], ?_⟩
    refine iff_of_false (by rintro ⟨p, hp⟩; cases hp) fun hnone => ?_
    rw [reported, ← noErrors_iff] at hnone
    rw [hnone] at herror
    cases herror
  · rename_i hnone
    refine ⟨by rw [reported, List.filter_append, errors_unusedLabels, List.append_nil], ?_⟩
    refine iff_of_true ⟨_, rfl⟩ ?_
    rw [reported, ← noErrors_iff]
    simpa using hnone

/-- **Bad operands**, one by one. If nothing is wrong with the lines of a source and with its addresses,
then the errors that are reported of it are those of the operands that become words, in the order of
the source: that the operand has no value in the final table, at the place where its evaluation
failed, or that its value is out of range, at the place of the operand. Each statement is judged at
the address that the first pass gave it, whatever is wrong in front of it. The source is assembled
if and only if there is no such operand.

Apart from these errors there can only be that of leaving the address space, where a statement asks
for so many bytes that 32 bits do not count them. No source does whose length is a number of 32 bits
with room for the address space. -/
theorem bad_operands_reported :
    let first := fun ss => (Layout.statements ⟨.ofOrigin origin, (parse source).symbols⟩ ss).1
    let final := (first (parse source).statements).symbols
    let bad := badOperands final (parse source).statements
    let errors := (reported (assemble source origin)).filter Diagnostic.isError
    errors.filter (·.cause ≠ .overflow) = bad ∧
    (∀ d ∈ bad, d.cause.code = "asm::eval" ∨ d.cause.code = "asm::range") ∧
    (∀ before after, (parse source).statements = before ++ after →
      (encodeStatements final (.ofOrigin origin) before).place.address =
        (first before).place.address) ∧
    (source.length + addressSpace < 0x100000000 →
      errors = bad ∧ ((∃ p, assemble source origin = .ok p) ↔ bad = [])) := by
  intro first final bad errors
  have horigin : origin.toNat ≤ addressSpace := Nat.le_of_lt origin.toNat_lt
  obtain ⟨herrors, hassembled⟩ := reported_assemble hparse hfirst
  have hstart : (Place.ofOrigin origin).address = origin.toNat := rfl
  obtain ⟨n, ds, hrun⟩ := reports_encodeStatements rfl horigin hstart hfirst (.refl _)
  refine ⟨?_, fun d hd => ?_, fun before after hsplit => ?_, fun hsize => ?_⟩
  · show errors.filter _ = badOperands _ _
    rw [← hrun.errors, ← hrun.reports.reports]
    show ((reported (assemble source origin)).filter _).filter _ = _
    rw [herrors, List.filter_filter, List.filter_filter]
    simp only [Bool.and_comm]
  · obtain ⟨⟨bits, node⟩, -, hnode⟩ := List.mem_filterMap.mp hd
    exact code_of_operandError? hnode
  · have hbefore := hfirst
    rw [hsplit, Layout.reports_append, hasErrors_append, Bool.or_eq_false_iff] at hbefore
    have hknown : (first before).symbols.Extends final := by
      show (Layout.statements _ before).1.symbols.Extends (Layout.statements _ _).1.symbols
      rw [hsplit, Layout.statements_append]
      exact Layout.extends_all _ after
    obtain ⟨m, es, hpart⟩ := reports_encodeStatements rfl horigin hstart hbefore.1 hknown
    rw [hpart.reports.address]
    exact hpart.address
  · have hroom := hrun.fits fun s hs => isSmall_of_mem_parse hparse hsize hs
    have hall : errors = bad := by
      show _ = badOperands _ _
      rw [← hrun.errors, ← (hrun.reports.room rfl hroom).2]
      exact herrors
    exact ⟨hall, hall ▸ hassembled⟩

end Sources

/-- Operands without a value and out of range, alone and side by side, in front of a label. -/
def faultySource : String :=
  ".word 1 / 0, 3, 70000\nld v0, -129\ndrw v0, v1, 16\nlater: .byte later, 1 << 64\n"

theorem bad_operands_reported_faultySource :
    (reported (assemble faultySource 0x200)).filter Diagnostic.isError =
        [⟨.evaluation (.divisionByZero ⟨6, 5⟩), ⟨6, 5⟩⟩, ⟨.outOfRange 70000 16, ⟨16, 5⟩⟩,
          ⟨.outOfRange (-129) 8, ⟨29, 4⟩⟩, ⟨.outOfRange 16 4, ⟨46, 2⟩⟩,
          ⟨.outOfRange 522 8, ⟨62, 5⟩⟩, ⟨.evaluation (.shiftRange 64 ⟨69, 7⟩), ⟨69, 7⟩⟩] ∧
      ¬ ∃ p, assemble faultySource 0x200 = .ok p := by
  have hparse : hasErrors (parse faultySource).diagnostics = false := by decide +kernel
  have hfirst : hasErrors (Layout.statements ⟨.ofOrigin 0x200, (parse faultySource).symbols⟩
      (parse faultySource).statements).2 = false := by decide +kernel
  obtain ⟨hall, hok⟩ := (bad_operands_reported hparse hfirst).2.2.2 (by decide)
  have hbad : badOperands (Layout.statements ⟨.ofOrigin 0x200, (parse faultySource).symbols⟩
      (parse faultySource).statements).1.symbols (parse faultySource).statements =
        [⟨.evaluation (.divisionByZero ⟨6, 5⟩), ⟨6, 5⟩⟩, ⟨.outOfRange 70000 16, ⟨16, 5⟩⟩,
          ⟨.outOfRange (-129) 8, ⟨29, 4⟩⟩, ⟨.outOfRange 16 4, ⟨46, 2⟩⟩,
          ⟨.outOfRange 522 8, ⟨62, 5⟩⟩, ⟨.evaluation (.shiftRange 64 ⟨69, 7⟩), ⟨69, 7⟩⟩] := by
    decide +kernel
  refine ⟨hall.trans hbad, fun h => ?_⟩
  have hnone := hbad.symm.trans (hok.mp h)
  cases hnone

end Chip8.Asm
