import Chip8.Proofs.Asm.WrittenLines
import Chip8.Proofs.Asm.Reports

/-! # Names are transparent

Where a name stands for a number or a register, the number or register may stand itself.

In a source text that is assembled, `spell` may write the value in parentheses for any names in the
expressions, and the register for any aliases that are operands (`WritesLines`). The new text is
assembled at the same origin to the same bytes, with the same symbols and values. -/

namespace Chip8.Asm

/-- **Names are transparent.** Any names that stand for a value of zero or more may be written out,
and any aliases as the registers that they stand for. -/
theorem names_transparent {source : String} {origin : UInt16} {program : Program}
    {spell : Token → List Char} (h : assemble source origin = .ok program)
    (hspell : WritesLines program.symbols spell .empty (lines source)) :
    ∃ program', assemble (respelled spell source) origin = .ok program' ∧
      program'.bytes = program.bytes ∧
      program'.symbols.symbols.map Symbol.entry = program.symbols.symbols.map Symbol.entry := by
  have hparsed := (assembleParsed_eq_ok.mp h).1
  have hok : (parse source).diagnostics = [] :=
    eq_nil_of_noErrors (fun _ => isError_of_mem_parse) hparsed
  exact assembleParsed_writtenOut h
    (writtenOut_parseLines Scope.like_empty (lines_respelled hspell.spelled) hspell hok)

/-- Constants, labels in front of their uses and behind them, and an alias. -/
def namedSource : String :=
  ".equ two, 2\n.equ four, two * two\n.alias x, v3\nloop: ld x, four ; x is four\n" ++
    "add x, x\n.word two, last\n.reserve four\nlast: jp loop + (two)\n"

/-- What is written for some of the names. -/
def writtenNames : Token → List Char := fun t =>
  match t.span.start with
  | 23 | 131 => "(2)".toList
  | 55 => "v3".toList
  | 58 | 109 => "(4)".toList
  | 82 => "V3".toList
  | 95 => "(524)".toList
  | 123 => "(512)".toList
  | _ => t.chars

/-- The source with these names written out; the others stay. -/
def writtenSource : String :=
  ".equ two, 2\n.equ four, (2) * two\n.alias x, v3\nloop: ld v3, (4) ; x is four\n" ++
    "add x, V3\n.word two, (524)\n.reserve (4)\nlast: jp (512) + ((2))\n"

theorem names_transparent_namedSource :
    ∃ p p', assemble namedSource 0x200 = .ok p ∧
      WritesLines p.symbols writtenNames .empty (lines namedSource) ∧
      respelled writtenNames namedSource = writtenSource ∧
      assemble writtenSource 0x200 = .ok p' ∧ p'.bytes = p.bytes ∧
      p'.symbols.symbols.map Symbol.entry = p.symbols.symbols.map Symbol.entry := by
  have htext : respelled writtenNames namedSource = writtenSource := by decide +kernel
  cases h : assemble namedSource 0x200 with
  | ok p =>
      have hwrites : (assemble namedSource 0x200).toOption.any (fun p =>
          decide (WritesLines p.symbols writtenNames .empty (lines namedSource))) = true := by
        decide +kernel
      rw [h, Except.toOption, Option.any_some, decide_eq_true_iff] at hwrites
      obtain ⟨p', hp', hbytes, hsymbols⟩ := names_transparent h hwrites
      rw [htext] at hp'
      exact ⟨p, p', rfl, hwrites, htext, hp', hbytes, hsymbols⟩
  | error ds =>
      have hok : (assemble namedSource 0x200).toBool = true := by decide +kernel
      rw [h] at hok
      cases hok

end Chip8.Asm
