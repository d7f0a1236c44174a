import Chip8.Asm.Statement
import Chip8.Proofs.Asm.Disassembly
import Chip8.Proofs.Asm.Forms
import Chip8.Proofs.Asm.Tokens
import Mathlib.Data.List.TakeWhile

/-! # Reading listings

The text of an instruction is read as one statement, with the form of the instruction.

* **Tokens.** `faces_operand` gives the tokens of the text of an operand, `faces_listing` those of an
  instruction.
* **Operands.** `readOperand_of_faces`: such tokens are read as the operand.
* **Lines.** `parseLine_listing`: a line that holds the text of an instruction is a statement with its
  form and its operands, and declares nothing. -/

namespace Chip8

open Asm

/-! ### Tokens -/

namespace Operand

/-- The tokens of the text of an operand. -/
def faces (o : Operand) : List Face :=
  match o.shape with
  | .register | .registerZero => [(.register o.value.toUInt8, o.text.toList)]
  | .word .indexMemory => [(.bracketOpen, ['[']), (.name, ['I']), (.bracketClose, [']'])]
  | .word k => [(.name, k.chars)]
  | .nibble | .byte | .address => [(.number .hexadecimal, o.text.toList)]

/-- The texts of operands with commas between them. -/
def listed : List Operand → List Char
  | [] => []
  | [o] => o.text.toList
  | o :: os => o.text.toList ++ ',' :: ' ' :: listed os

/-- The tokens of operands with commas between them. -/
def listedFaces : List Operand → List Face
  | [] => []
  | [o] => o.faces
  | o :: os => o.faces ++ (.comma, [',']) :: listedFaces os

/-- The operand as a tree at some place. -/
def node (o : Operand) (span : Span) : Node :=
  match o.shape with
  | .register | .registerZero => .register o.value.toUInt8 span
  | .word k => .keyword k span
  | .nibble | .byte | .address => .number (Int64.ofNat o.value) span

end Operand

namespace Asm

theorem faces_constant (width n : Nat) {rest : List Char} (hrest : Delimited rest) :
    faces (("0x" ++ Numeral.hexUpper width n).toList ++ rest) =
      (.number .hexadecimal, ("0x" ++ Numeral.hexUpper width n).toList) :: faces rest := by
  rw [String.toList_append]
  exact faces_hexadecimal (all_isNamePart_hexUpper width n) hrest

theorem faces_operand {o : Operand} (ho : o.Valid) {rest : List Char} (hrest : Delimited rest) :
    faces (o.text.toList ++ rest) = o.faces ++ faces rest := by
  obtain ⟨shape, value⟩ := o
  cases shape with
  | register =>
      have htext : (Operand.text ⟨.register, value⟩).toList = ['V', Numeral.digitUpper value] := by
        rw [Operand.text, String.toList_append, Numeral.hexUpper_one ho]
        rfl
      rw [Operand.faces, htext]
      exact faces_register (Numeral.digit?_digitUpper value ho) hrest
  | registerZero =>
      obtain rfl : value = 0 := Nat.lt_one_iff.mp ho
      exact faces_register (k := 0) (by decide) hrest
  | word k =>
      have htext : (Operand.text ⟨.word k, value⟩).toList = k.chars := String.toList_ofList
      rw [htext]
      cases k with
      | index => exact faces_word (c := 'I') [] (by decide) rfl hrest
      | indexMemory =>
          show faces ('[' :: 'I' :: ([] ++ ']' :: rest)) = _
          rw [faces_bracketOpen,
            faces_word [] (by decide) rfl (delimited_cons (by decide) rest), faces_bracketClose]
          rfl
      | delay => exact faces_word (c := 'D') ['T'] (by decide) (by decide) hrest
      | sound => exact faces_word (c := 'S') ['T'] (by decide) (by decide) hrest
      | key => exact faces_word (c := 'K') [] (by decide) rfl hrest
      | glyph => exact faces_word (c := 'F') [] (by decide) rfl hrest
      | decimal => exact faces_word (c := 'B') [] (by decide) rfl hrest
  | nibble => exact faces_constant 1 value hrest
  | byte => exact faces_constant 2 value hrest
  | address => exact faces_constant 3 value hrest

theorem faces_listed {os : List Operand} (hos : ∀ o ∈ os, o.Valid) :
    faces (Operand.listed os) = Operand.listedFaces os := by
  induction os with
  | nil => rfl
  | cons o os ih =>
      have ho := hos o (List.mem_cons_self ..)
      cases os with
      | nil =>
          have hlast := faces_operand ho delimited_nil
          rwa [List.append_nil, faces_nil, List.append_nil] at hlast
      | cons o' os =>
          rw [Operand.listed, faces_operand ho (delimited_cons (by decide) _), faces_comma,
            faces_blank (by decide), ih fun p hp => hos p (List.mem_cons_of_mem _ hp)]
          · rfl
          · simp

/-! ### Operands -/

theorem exists_of_map_face {ts : List Token} {kind : TokenKind} {chars : List Char}
    {fs : List Face} (h : ts.map Token.face = (kind, chars) :: fs) :
    ∃ t us, ts = t :: us ∧ t.kind = kind ∧ t.chars = chars ∧ us.map Token.face = fs := by
  obtain ⟨t, us, rfl, hface, hus⟩ := List.map_eq_cons_iff.mp h
  exact ⟨t, us, rfl, congrArg Prod.fst hface, congrArg Prod.snd hface, hus⟩

theorem exists_of_map_face_singleton {ts : List Token} {kind : TokenKind} {chars : List Char}
    (h : ts.map Token.face = [(kind, chars)]) : ∃ t, ts = [t] ∧ t.kind = kind ∧ t.chars = chars := by
  obtain ⟨t, us, rfl, hkind, hchars, hus⟩ := exists_of_map_face h
  rw [List.map_eq_nil_iff.mp hus]
  exact ⟨t, rfl, hkind, hchars⟩

theorem readOperand_register {stop t : Token} {r : UInt8} (ht : t.kind = .register r) :
    readOperand [] ⟨[t], stop⟩ = .ok (.register r t.span, []) := by
  unfold readOperand
  dsimp only
  rw [ht]

theorem readOperand_keyword {stop t : Token} {k : Keyword} (ht : t.kind = .name)
    (hk : Keyword.ofWord? t.chars = some k) :
    readOperand [] ⟨[t], stop⟩ = .ok (.keyword k t.span, []) := by
  unfold readOperand
  dsimp only
  rw [ht]
  dsimp only
  rw [wordOperand, hk]
  rfl

theorem readOperand_indexMemory {stop t u v : Token} (ht : t.kind = .bracketOpen)
    (hu : u.kind = .name) (hchars : u.chars = ['I']) (hv : v.kind = .bracketClose) :
    ∃ span, readOperand [] ⟨[t, u, v], stop⟩ = .ok (.keyword .indexMemory span, []) := by
  refine ⟨t.span.join v.span, ?_⟩
  unfold readOperand
  dsimp only
  rw [ht]
  dsimp only
  unfold bracketOperand
  simp only [List.head?_cons, Option.getD_some, List.tail_cons, hu, hchars, hv]
  rfl

theorem readOperand_number {stop t : Token} {n : Nat} (ht : t.kind = .number .hexadecimal)
    (hn : Numeral.read 16 0x7FFFFFFFFFFFFFFF (t.chars.drop 2) = .ok n) :
    readOperand [] ⟨[t], stop⟩ = .ok (.number (Int64.ofNat n) t.span, []) := by
  have hnumber : numberOf .hexadecimal t = .ok (Int64.ofNat n) := by
    have hread : Numeral.read Base.hexadecimal.radix 0x7FFFFFFFFFFFFFFF
        (t.chars.drop Base.hexadecimal.markLength) = .ok n := hn
    rw [numberOf, hread]
  have hstart : operandStart [] t = .ok (.inr (.number (Int64.ofNat n) t.span)) := by
    unfold operandStart
    rw [ht]
    dsimp only
    rw [hnumber]
    rfl
  unfold readOperand
  dsimp only
  rw [ht]
  dsimp only
  unfold readTree readExpression readFrom
  rw [hstart]
  rfl

/-- The tokens of an operand are read as the operand. -/
theorem readOperand_of_faces {o : Operand} (ho : o.Valid) (stop : Token) {ts : List Token}
    (hts : ts.map Token.face = o.faces) :
    ∃ span, readOperand [] ⟨ts, stop⟩ = .ok (o.node span, []) := by
  have hconstant : ∀ {value width : Nat} {ts : List Token}, value ≤ 0x7FFFFFFFFFFFFFFF →
      ts.map Token.face =
        [(.number .hexadecimal, ("0x" ++ Numeral.hexUpper width value).toList)] →
      ∃ span, readOperand [] ⟨ts, stop⟩ = .ok (.number (Int64.ofNat value) span, []) := by
    intro value width ts hvalue hts
    obtain ⟨t, rfl, hkind, hchars⟩ := exists_of_map_face_singleton hts
    refine ⟨t.span, readOperand_number hkind ?_⟩
    rw [hchars, String.toList_append]
    exact Numeral.read_hexUpper hvalue
  obtain ⟨shape, value⟩ := o
  cases shape with
  | register =>
      obtain ⟨t, rfl, hkind, _⟩ := exists_of_map_face_singleton hts
      exact ⟨t.span, readOperand_register hkind⟩
  | registerZero =>
      obtain ⟨t, rfl, hkind, _⟩ := exists_of_map_face_singleton hts
      exact ⟨t.span, readOperand_register hkind⟩
  | word k =>
      by_cases hk : k = .indexMemory
      · rw [hk] at hts ⊢
        obtain ⟨t, us, rfl, ht, _, hus⟩ := exists_of_map_face hts
        obtain ⟨u, vs, rfl, hu, hchars, hvs⟩ := exists_of_map_face hus
        obtain ⟨v, rfl, hv, _⟩ := exists_of_map_face_singleton hvs
        exact readOperand_indexMemory ht hu hchars hv
      · have hfaces : Operand.faces ⟨.word k, value⟩ = [(.name, k.chars)] := by
          cases k <;> first | rfl | exact absurd rfl hk
        rw [hfaces] at hts
        obtain ⟨t, rfl, hkind, hchars⟩ := exists_of_map_face_singleton hts
        exact ⟨t.span, readOperand_keyword hkind (by rw [hchars, Keyword.ofWord?_chars hk])⟩
  | nibble =>
      have hlt : value < 0x10 := ho
      have hvalue : value ≤ 0x7FFFFFFFFFFFFFFF := by omega
      exact hconstant hvalue hts
  | byte =>
      have hlt : value < 0x100 := ho
      have hvalue : value ≤ 0x7FFFFFFFFFFFFFFF := by omega
      exact hconstant hvalue hts
  | address =>
      have hlt : value < 0x1000 := ho
      have hvalue : value ≤ 0x7FFFFFFFFFFFFFFF := by omega
      exact hconstant hvalue hts

/-! ### Lists of operands -/

theorem pieces_of_no_comma {stop : Token} {ts : List Token} (hts : ∀ t ∈ ts, t.kind ≠ .comma) :
    pieces stop ts = [⟨ts, stop⟩] := by
  induction ts with
  | nil => rfl
  | cons t ts ih =>
      rw [pieces, if_neg (hts t (List.mem_cons_self ..)),
        ih fun u hu => hts u (List.mem_cons_of_mem _ hu)]

theorem pieces_comma {stop comma : Token} {ts us : List Token} (hts : ∀ t ∈ ts, t.kind ≠ .comma)
    (hcomma : comma.kind = .comma) :
    pieces stop (ts ++ comma :: us) = ⟨ts, comma⟩ :: pieces stop us := by
  induction ts with
  | nil => rw [List.nil_append, pieces, if_pos hcomma]
  | cons t ts ih =>
      rw [List.cons_append, pieces, if_neg (hts t (List.mem_cons_self ..)),
        ih fun u hu => hts u (List.mem_cons_of_mem _ hu)]

theorem kind_of_mem_faces {o : Operand} {f : Face} (hf : f ∈ o.faces) :
    f.1 ≠ .comma ∧ f.1 ≠ .colon := by
  have hfaces : ∀ f ∈ o.faces, f.1 ≠ TokenKind.comma ∧ f.1 ≠ TokenKind.colon := by
    obtain ⟨shape, value⟩ := o
    cases shape with
    | word k => cases k <;> simp [Operand.faces]
    | _ => simp [Operand.faces]
  exact hfaces f hf

theorem no_comma_of_faces {o : Operand} {ts : List Token} (hts : ts.map Token.face = o.faces) :
    ∀ t ∈ ts, t.kind ≠ .comma := by
  intro t ht
  have hmem : t.face ∈ o.faces := hts ▸ List.mem_map_of_mem ht
  exact (kind_of_mem_faces hmem).1

theorem no_colon_of_listedFaces {os : List Operand} {f : Face}
    (hf : f ∈ Operand.listedFaces os) : f.1 ≠ .colon := by
  induction os with
  | nil => cases hf
  | cons o os ih =>
      cases os with
      | nil => exact (kind_of_mem_faces hf).2
      | cons o' os =>
          rcases List.mem_append.mp hf with hf | hf
          · exact (kind_of_mem_faces hf).2
          · rcases List.mem_cons.mp hf with rfl | hf
            · exact fun h => by cases h
            · exact ih hf

/-- The trees are those of the operands, at some places. -/
def Reads (os : List Operand) (ns : List Node) : Prop :=
  List.Forall₂ (fun o n => ∃ span, n = o.node span) os ns

theorem readPieces_of_faces {os : List Operand} (hos : ∀ o ∈ os, o.Valid) (hne : os ≠ [])
    {stop : Token} {ts : List Token} (hts : ts.map Token.face = Operand.listedFaces os) :
    ∃ ns, readPieces (readOperand []) (pieces stop ts) = .ok (ns, none) ∧ Reads os ns := by
  induction os generalizing ts with
  | nil => exact absurd rfl hne
  | cons o os ih =>
      have ho := hos o (List.mem_cons_self ..)
      cases os with
      | nil =>
          obtain ⟨span, hread⟩ := readOperand_of_faces ho stop hts
          refine ⟨[o.node span], ?_, .cons ⟨span, rfl⟩ .nil⟩
          rw [pieces_of_no_comma (no_comma_of_faces hts), readPieces, hread]
          rfl
      | cons o' os =>
          obtain ⟨first, others, rfl, hfirst, hothers⟩ := List.map_eq_append_iff.mp hts
          obtain ⟨comma, rest, rfl, hcomma, _, hrest⟩ := exists_of_map_face hothers
          obtain ⟨span, hread⟩ := readOperand_of_faces ho comma hfirst
          obtain ⟨ns, hns, hreads⟩ := ih (fun p hp => hos p (List.mem_cons_of_mem _ hp))
            (List.cons_ne_nil _ _) hrest
          refine ⟨o.node span :: ns, ?_, .cons ⟨span, rfl⟩ hreads⟩
          rw [pieces_comma (no_comma_of_faces hfirst) hcomma, readPieces, hread]
          dsimp only
          rw [hns]

theorem readOperands_of_faces {os : List Operand} (hos : ∀ o ∈ os, o.Valid) (stop : Token)
    {ts : List Token} (hts : ts.map Token.face = Operand.listedFaces os) :
    ∃ ns, readOperands [] stop ts = .ok (ns, none) ∧ Reads os ns := by
  unfold readOperands
  cases os with
  | nil =>
      rw [List.map_eq_nil_iff.mp hts]
      exact ⟨[], rfl, .nil⟩
  | cons o os =>
      have hne : ts.isEmpty = false := by
        cases ts with
        | nil =>
            obtain ⟨shape, value⟩ := o
            cases shape with
            | word k => cases k <;> cases os <;> cases hts
            | _ => cases os <;> cases hts
        | cons t ts => rfl
      rw [hne]
      exact readPieces_of_faces hos (List.cons_ne_nil _ _) hts

theorem accepts_node {o : Operand} (ho : o.Valid) (span : Span) :
    o.shape.accepts (o.node span) = true := by
  obtain ⟨shape, value⟩ := o
  cases shape with
  | registerZero =>
      obtain rfl : value = 0 := Nat.lt_one_iff.mp ho
      rfl
  | word k => exact decide_eq_true rfl
  | register => rfl
  | nibble => rfl
  | byte => rfl
  | address => rfl

/-- A form whose signature lists the shapes of the operands accepts them. -/
theorem accepts_of_reads {slots : List Slot} {os : List Operand} {ns : List Node}
    (hslots : slots.map Slot.shape = os.map Operand.shape) (hos : ∀ o ∈ os, o.Valid)
    (hreads : Reads os ns) :
    slots.length = ns.length ∧ ∀ s ∈ slots.zip ns, s.1.shape.accepts s.2 = true := by
  induction hreads generalizing slots with
  | nil =>
      rw [List.map_nil, List.map_eq_nil_iff] at hslots
      rw [hslots]
      exact ⟨rfl, fun s hs => by cases hs⟩
  | @cons o n os ns hn hreads ih =>
      obtain ⟨slot, rest, rfl, hslot, hrest⟩ := List.map_eq_cons_iff.mp hslots
      obtain ⟨span, rfl⟩ := hn
      obtain ⟨hlength, hall⟩ := ih hrest fun p hp => hos p (List.mem_cons_of_mem _ hp)
      refine ⟨by rw [List.length_cons, List.length_cons, hlength], fun s hs => ?_⟩
      rcases List.mem_cons.mp hs with rfl | hs
      · rw [hslot]
        exact accepts_node (hos o (List.mem_cons_self ..)) span
      · exact hall s hs

/-! ### Instructions -/

/-- The characters of a name that is read as a word. -/
def isWord : List Char → Bool
  | [] => false
  | c :: cs => startsWord c && cs.all isNamePart

theorem isWord_mnemonic : ∀ form ∈ forms, isWord form.mnemonic.toList = true := by
  decide +kernel

theorem isNamed_mnemonic : ∀ form ∈ forms, form.isNamed form.mnemonic.toList = true := by
  decide +kernel

theorem faces_mnemonic {cs rest : List Char} (hcs : isWord cs = true) (hrest : Delimited rest) :
    faces (cs ++ rest) = (.name, cs) :: faces rest := by
  cases cs with
  | nil => cases hcs
  | cons c cs =>
      rw [isWord, Bool.and_eq_true] at hcs
      exact faces_word cs hcs.1 hcs.2 hrest

theorem toList_listed (os : List Operand) :
    (", ".intercalate (os.map Operand.text)).toList = Operand.listed os := by
  induction os with
  | nil => rw [List.map_nil, String.intercalate_nil]; rfl
  | cons o os ih =>
      cases os with
      | nil => rw [List.map_singleton, String.intercalate_singleton]; rfl
      | cons o' os =>
          rw [List.map_cons] at ih ⊢
          rw [List.map_cons, String.intercalate_cons_cons, String.toList_append,
            String.toList_append, ih, List.append_assoc]
          rfl

variable {w : UInt16} {i : Instruction} {form : Form}

/-- The text of an instruction: the mnemonic, and behind a blank the operands if there are any. -/
theorem toList_text (i : Instruction) :
    i.text.toList = i.mnemonic.toList ++
      if i.operands.isEmpty then [] else ' ' :: Operand.listed i.operands := by
  rw [Instruction.text_eq]
  split
  · rename_i hnil
    rw [hnil]
    exact (List.append_nil _).symm
  · rename_i hcons
    have hne : i.operands.isEmpty = false := List.isEmpty_eq_false_iff.mpr hcons
    rw [hne, Instruction.listing, String.toList_append, String.toList_append, toList_listed,
      List.append_assoc]
    rfl

theorem faces_listing (hi : Instruction.decode w = some i) (hform : FormOf w i form) :
    faces i.text.toList = (.name, form.mnemonic.toList) :: Operand.listedFaces i.operands := by
  have hword := isWord_mnemonic form hform.form_mem
  rw [toList_text, ← hform.mnemonic]
  split
  · rename_i hempty
    rw [List.isEmpty_iff.mp hempty, faces_mnemonic hword delimited_nil]
    rfl
  · rw [faces_mnemonic hword (delimited_cons (by decide) _), faces_blank (by decide),
      faces_listed (valid_of_decode hi)]

/-- The tokens of the text of an instruction are read as the form and the operands. -/
theorem readInstruction_of_faces (hi : Instruction.decode w = some i) (hform : FormOf w i form)
    (stop : Token) {t : Token} {ts : List Token} (ht : t.chars = form.mnemonic.toList)
    (hts : ts.map Token.face = Operand.listedFaces i.operands) :
    ∃ ns, readInstruction [] stop t ts = .ok (.instruction form ns, none) ∧
      Reads i.operands ns := by
  have hvalid := valid_of_decode hi
  have hnamed := isNamed_mnemonic form hform.form_mem
  obtain ⟨ns, hns, hreads⟩ := readOperands_of_faces hvalid stop hts
  have hmnemonic : isMnemonic t.chars = true := by
    rw [ht]
    exact List.any_eq_true.mpr ⟨form, hform.form_mem, hnamed⟩
  have hmatching : matching t.chars ns = [form] := by
    rw [ht]
    exact matching_eq_singleton (mem_matching.mpr ⟨hform.form_mem, hnamed,
      Form.accepts_iff.mpr (accepts_of_reads hform.signature hvalid hreads)⟩)
  have hselect : selectForm t ns = .ok form := by
    unfold selectForm
    dsimp only
    rw [hmatching]
  refine ⟨ns, ?_, hreads⟩
  unfold readInstruction
  rw [if_pos hmnemonic, hns]
  show (selectForm t ns >>= fun form => _) = _
  rw [hselect]
  rfl

/-! ### Lines -/

/-- A line without a comment is code as a whole. -/
theorem code_of_plain {l : Line} (hplain : ∀ c ∈ l.chars, c ≠ ';') :
    l.code = l.chars ∧ l.comment? = none := by
  have hdrop : l.chars.dropWhile (· ≠ ';') = [] :=
    List.dropWhile_eq_nil_iff.mpr fun c hc => decide_eq_true (hplain c hc)
  refine ⟨List.takeWhile_eq_self_iff.mpr fun c hc => decide_eq_true (hplain c hc), ?_⟩
  rw [Line.comment?, hdrop]

/-- Characters that neither end a line nor start a comment. -/
def isPlain (c : Char) : Bool := c ≠ '\n' && c ≠ ';'

theorem isPlain_of_isNamePart {c : Char} (hc : isNamePart c = true) : isPlain c = true := by
  unfold isPlain
  rw [Bool.and_eq_true, decide_eq_true_iff, decide_eq_true_iff]
  constructor <;> rintro rfl <;> exact absurd hc (by decide)

theorem isPlain_of_isWord {cs : List Char} (hcs : isWord cs = true) : cs.all isPlain = true := by
  cases cs with
  | nil => rfl
  | cons c cs =>
      rw [isWord, Bool.and_eq_true] at hcs
      rw [List.all_cons, Bool.and_eq_true, List.all_eq_true]
      exact ⟨isPlain_of_isNamePart (isNamePart_of_startsWord hcs.1), fun d hd =>
        isPlain_of_isNamePart (List.all_eq_true.mp hcs.2 d hd)⟩

theorem isPlain_operand (o : Operand) : o.text.toList.all isPlain = true := by
  have hhex : ∀ width n, (Numeral.hexUpper width n).toList.all isPlain = true := by
    intro width n
    rw [List.all_eq_true]
    intro c hc
    exact isPlain_of_isNamePart (List.all_eq_true.mp (all_isNamePart_hexUpper width n) c hc)
  obtain ⟨shape, value⟩ := o
  cases shape with
  | word k =>
      have htext : (Operand.text ⟨.word k, value⟩).toList = k.chars := String.toList_ofList
      rw [htext]
      cases k <;> decide
  | register => rw [Operand.text, String.toList_append, List.all_append, hhex]; decide
  | registerZero =>
      show "V0".toList.all isPlain = true
      decide
  | nibble => rw [Operand.text, String.toList_append, List.all_append, hhex]; decide
  | byte => rw [Operand.text, String.toList_append, List.all_append, hhex]; decide
  | address => rw [Operand.text, String.toList_append, List.all_append, hhex]; decide

theorem isPlain_listed (os : List Operand) : (Operand.listed os).all isPlain = true := by
  induction os with
  | nil => rfl
  | cons o os ih =>
      cases os with
      | nil => exact isPlain_operand o
      | cons o' os =>
          show (o.text.toList ++ ',' :: ' ' :: Operand.listed (o' :: os)).all isPlain = true
          rw [List.all_append, isPlain_operand, List.all_cons, List.all_cons, ih]
          rfl

theorem isPlain_text (hform : FormOf w i form) : i.text.toList.all isPlain = true := by
  rw [toList_text, List.all_append, ← hform.mnemonic,
    isPlain_of_isWord (isWord_mnemonic form hform.form_mem)]
  split
  · rfl
  · rw [List.all_cons, isPlain_listed]
    rfl

/-- A statement that is an instruction and nothing else. -/
structure Instructs (form : Form) (os : List Operand) (s : Statement) : Prop where
  label : s.label = none
  body : ∃ ns, s.body = some (.instruction form ns) ∧ Reads os ns

theorem splitLabel_of_faces {t : Token} {ts : List Token} {os : List Operand}
    (hts : ts.map Token.face = Operand.listedFaces os) : splitLabel (t :: ts) = (none, t :: ts) := by
  cases ts with
  | nil => rfl
  | cons u us =>
      have hu : u.face ∈ Operand.listedFaces os := hts ▸ List.mem_map_of_mem (List.mem_cons_self ..)
      have hcolon : u.kind ≠ .colon := no_colon_of_listedFaces hu
      rw [splitLabel, if_neg fun h => hcolon h.2]

/-- **A listing line is its instruction.** -/
theorem parseLine_listing (hi : Instruction.decode w = some i) (hform : FormOf w i form)
    {scope : Scope} (hscope : scope.aliases = []) {l : Line} (hl : l.chars = i.text.toList) :
    ∃ s, parseLine scope l = ⟨scope, [], some s⟩ ∧ Instructs form i.operands s := by
  have hplain : ∀ c ∈ l.chars, c ≠ ';' := by
    intro c hc
    rw [hl] at hc
    have hc' := List.all_eq_true.mp (isPlain_text hform) c hc
    rw [isPlain, Bool.and_eq_true] at hc'
    exact of_decide_eq_true hc'.2
  obtain ⟨hcode, hcomment⟩ := code_of_plain hplain
  have htokens : l.tokens.map Token.face =
      (.name, form.mnemonic.toList) :: Operand.listedFaces i.operands := by
    rw [Line.tokens, faces_tokensFrom, hcode, hl, faces_listing hi hform]
  obtain ⟨t, ts, htokens, hkind, hchars, hts⟩ := exists_of_map_face htokens
  obtain ⟨ns, hread, hreads⟩ := readInstruction_of_faces hi hform l.stop hchars hts
  have hbody : readBody scope l.stop (t :: ts) = .ok (scope, some (.instruction form ns), none) := by
    unfold readBody
    dsimp only
    rw [hkind, hscope]
    dsimp only
    rw [hread]
    rfl
  unfold parseLine
  rw [htokens, splitLabel_of_faces hts]
  dsimp only
  unfold parseRest
  rw [hbody]
  exact ⟨_, rfl, rfl, ns, rfl, hreads⟩

end Asm

end Chip8
