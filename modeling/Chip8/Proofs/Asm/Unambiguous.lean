import Chip8.Proofs.Asm.Operands
import Chip8.Proofs.Asm.LineByLine

/-! # Diagnostics that no source has

Two causes stand for slips of the assembler itself: an instruction that several forms take, and a
name that spells no identifier.

* **Forms.** `length_matching_le`: no instruction is taken by two forms of the table, whatever its
  operands are.
* **Names.** `isIdentifier_of_mem_tokensFrom`: every name that is scanned spells an identifier.
* **Lines.** So both causes are missing from all that the reading functions fail with
  (`covers_isEarned`), from the reports of every line, and from those of every source. -/

namespace Chip8.Asm

/-! ### Forms -/

theorem length_matching_le (mnemonic : List Char) (operands : List Node) :
    (matching mnemonic operands).length ≤ 1 := by
  cases hfound : matching mnemonic operands with
  | nil => exact Nat.zero_le 1
  | cons form found =>
      have hmem : form ∈ matching mnemonic operands := hfound ▸ List.mem_cons_self
      rw [← hfound, matching_eq_singleton hmem]
      exact Nat.le_refl 1

theorem length_matching (mnemonic : List Char) (operands : List Node) :
    (matching mnemonic operands).length =
      forms.countP fun f => f.isNamed mnemonic && f.accepts operands := by
  rw [matching, formsNamed, List.filter_filter, List.countP_eq_length_filter]
  simp only [Bool.and_comm]

/-! ### Names -/

namespace Lexeme

theorem isIdentifier_run {c : Char} (hc : isNameStart c = true) (kind : TokenKind)
    (cs : List Char) : isIdentifier (run kind isNamePart c cs).chars = true := by
  rw [run, isIdentifier, hc, Bool.true_and, List.all_eq_true]
  exact fun d hd => List.mem_takeWhile_imp hd

theorem isIdentifier_registerOrName {c : Char} (hc : isNameStart c = true) (cs : List Char) :
    (registerOrName c cs).kind = .name → isIdentifier (registerOrName c cs).chars = true := by
  unfold registerOrName
  split
  · split
    · split
      · exact fun _ => isIdentifier_run hc _ _
      · intro h
        cases h
    · exact fun _ => isIdentifier_run hc _ _
  · exact fun _ => isIdentifier_run hc _ _

/-- A name spells an identifier. -/
theorem isIdentifier_of_scan {c : Char} {cs : List Char} (h : (scan c cs).kind = .name) :
    isIdentifier (scan c cs).chars = true := by
  unfold scan at h ⊢
  split at h
  case h_9 | h_10 | h_11 | h_12 =>
    rcases kind_pair _ cs _ _ _ with e | e <;> rw [e] at h <;> cases h
  case h_13 | h_14 =>
    obtain ⟨op, e⟩ := kind_angle _ cs _ _ _
    rw [e] at h
    cases h
  case h_21 => rcases kind_percent _ cs with e | e <;> rw [e] at h <;> cases h
  case h_22 => rcases kind_dot _ cs with e | e <;> rw [e] at h <;> cases h
  case h_23 =>
    obtain ⟨base, e⟩ := kind_zero _ cs
    rw [e] at h
    cases h
  case h_24 | h_25 => exact isIdentifier_registerOrName rfl cs h
  case h_26 =>
    split at h
    · cases h
    · rename_i hdigit
      split at h
      · rename_i hstart
        rw [if_neg hdigit, if_pos hstart]
        exact isIdentifier_run hstart _ _
      · cases h
  all_goals cases h

end Lexeme

theorem isIdentifier_of_mem_tokensFrom {skip offset : Nat} {cs : List Char} {t : Token}
    (ht : t ∈ tokensFrom skip offset cs) (hname : t.kind = .name) :
    isIdentifier t.chars = true := by
  obtain ⟨c, -, ds, hkind, hchars⟩ := scan_of_mem_tokensFrom ht
  rw [hchars]
  exact Lexeme.isIdentifier_of_scan (hkind ▸ hname)

/-! ### Lines -/

/-- The diagnostic says something of the source: neither that forms compete for an instruction nor
that a name is misspelled. -/
def Diagnostic.IsEarned (d : Diagnostic) : Prop :=
  d.cause.code ≠ "parse::ambiguous_instruction" ∧ d.cause.code ≠ "parse::identifier"

theorem isEarned_of_isPlain {d : Diagnostic} (h : d.cause.isPlain = true) : d.IsEarned := by
  obtain ⟨cause, span⟩ := d
  unfold Diagnostic.IsEarned
  cases cause
  case invalidName | ambiguousForm | misaligned | unusedLabel => cases h
  all_goals simp [Cause.code]

theorem covers_isEarned : Covers Diagnostic.IsEarned := by
  refine ⟨fun d => isEarned_of_isPlain, fun mnemonic operands => ?_⟩
  have hle := length_matching_le mnemonic.chars operands
  unfold selectForm
  dsimp only
  split
  · exact .ok _
  · exact .error (isEarned_of_isPlain rfl)
  · rename_i hone hnone
    cases hfound : matching mnemonic.chars operands with
    | nil => exact absurd hfound hnone
    | cons form found =>
        cases found with
        | nil => exact absurd hfound (hone form)
        | cons form' found =>
            rw [hfound] at hle
            simp at hle

theorem isEarned_identifierOf {t : Token} (h : isIdentifier t.chars = true) :
    FailsWith Diagnostic.IsEarned (identifierOf t) := by
  unfold identifierOf Identifier.ofChars?
  rw [dif_pos h]
  exact .ok _

theorem nameIn_of_mem_tokens {l : Line} {t : Token} (ht : t ∈ l.tokens) :
    t.NameIn Diagnostic.IsEarned :=
  fun hname => isEarned_identifierOf (isIdentifier_of_mem_tokensFrom ht hname)

theorem nameIn_stop (l : Line) : l.stop.NameIn Diagnostic.IsEarned := by
  intro hname
  have hends := l.endsCode_stop
  rw [hname] at hends
  cases hends

/-- All that a source is reported for is earned. -/
theorem isEarned_of_mem_parse {source : String} {d : Diagnostic}
    (hd : d ∈ (parse source).diagnostics) : d.IsEarned :=
  diagnostics_parseLines .empty covers_isEarned
    (fun l _ => ⟨nameIn_stop l, fun _ ht => nameIn_of_mem_tokens ht⟩) d hd

/-! ### Sources -/

/-- **No instruction is ambiguous and no name misspelled.** At most one form of the table has a given
name, in whatever letter case, and takes given operands; every name among the tokens of a text
spells an identifier. So no source is reported for either, be it read line by line or token by
token. -/
theorem instructions_unambiguous :
    (∀ mnemonic operands,
      (forms.countP fun f => f.isNamed mnemonic && f.accepts operands) ≤ 1) ∧
    (∀ source, ∀ t ∈ tokenize source, t.kind = .name → (Identifier.ofChars? t.chars).isSome) ∧
    (∀ source, ∀ d ∈ (parse source).diagnostics,
      d.cause.code ≠ "parse::ambiguous_instruction" ∧ d.cause.code ≠ "parse::identifier") ∧
    (∀ source, Reader.parse source = some (parse source)) := by
  refine ⟨fun mnemonic operands => ?_, fun source t ht hname => ?_, fun source => ?_,
    Reader.parse_eq⟩
  · rw [← length_matching]
    exact length_matching_le mnemonic operands
  · have hvalid := isIdentifier_of_mem_tokensFrom ht hname
    rw [Identifier.ofChars?, dif_pos hvalid]
    rfl
  · exact fun d hd => isEarned_of_mem_parse hd

/-- `V0` is any register and register zero at once, yet one form of `jp` takes it. With a name in
its place no form does, and that is what is reported. -/
theorem instructions_unambiguous_offsetJump :
    (forms.countP fun f => f.isNamed "jp".toList &&
      f.accepts [.register 0 ⟨3, 2⟩, .number 1 ⟨7, 1⟩]) ≤ 1 ∧
    ((⟨.name, "zero".toList, ⟨3, 4⟩⟩ : Token) ∈ tokenize "jp zero, 1" ∧
      (Identifier.ofChars? "zero".toList).isSome) ∧
    (⟨.noForm "jp".toList, ⟨0, 10⟩⟩ : Diagnostic) ∈ (parse "jp zero, 1").diagnostics ∧
    (Cause.noForm "jp".toList).code ≠ "parse::ambiguous_instruction" := by
  have htoken : (⟨.name, "zero".toList, ⟨3, 4⟩⟩ : Token) ∈ tokenize "jp zero, 1" := by decide
  have hreport : (⟨.noForm "jp".toList, ⟨0, 10⟩⟩ : Diagnostic) ∈
      (parse "jp zero, 1").diagnostics := by decide +kernel
  exact ⟨instructions_unambiguous.1 _ _,
    ⟨htoken, instructions_unambiguous.2.1 "jp zero, 1" _ htoken rfl⟩, hreport,
    (instructions_unambiguous.2.2.1 "jp zero, 1" _ hreport).1⟩

end Chip8.Asm
