import Chip8.Proofs.Asm.RoundTrip
import Chip8.Proofs.Asm.Spacing

/-! # Reading printed trees

The text of an expression is read as the expression.

* **Trees.** The `Printable` ones are those of numbers that are not negative, names that no register
  has, and operators with as many operands as they take.
* **Tokens.** `faces_chars`: the tokens of the text of a tree, in front of anything that goes on with no
  name. Two operators never run into one token: binary ones stand between blanks, and no operand
  starts with the second character of an operator.
* **Reading.** `readFrom_of_faces`: such tokens are read as the tree wherever an operand is due,
  whatever is open in front of it.
* `parse_wordText` is about the whole source text. -/

namespace Chip8.Asm

/-- Whether a word is read as a register and not as a name. -/
def isRegisterWord (w : List Char) : Bool :=
  match w with
  | [v, d] => (v = 'v' || v = 'V') && (Numeral.digit? 16 d).isSome
  | _ => false

/-- Expressions whose text is read as them. -/
inductive Node.Printable : Node → Prop
  | number {v : Int64} {s : Span} (nonneg : 0 ≤ v.toInt) : Printable (.number v s)
  | name {i : Identifier} {s : Span} (word : isRegisterWord i.chars = false) : Printable (.name i s)
  | apply {op : Operator} {ns : List Node} {s : Span} (arity : ns.length = op.arity)
      (operands : ∀ n ∈ ns, Printable n) : Printable (.apply op ns s)

/-! ### Tokens -/

/-- The operator that the spelling of an operator is read as. -/
def Operator.spelled : Operator → Operator
  | neg => sub
  | op => op

theorem Operator.asPrefix_spelled {op : Operator} (hop : op.arity = 1) :
    op.spelled.asPrefix = some op := by
  cases op <;> first | rfl | cases hop

/-- The tokens of an operator and its operands. -/
def appliedFaces (op : Operator) : List (List Face) → List Face
  | [a] => (.operator op.spelled, op.symbol) :: a
  | [a, b] => (.parenOpen, ['(']) :: a ++ (.operator op, op.symbol) :: b ++ [(.parenClose, [')'])]
  | _ => []

mutual

/-- The tokens of the text of a tree. -/
def Node.faces : Node → List Face
  | .number v _ => [(.number .decimal, Node.integerChars v.toInt)]
  | .name i _ => [(.name, i.chars)]
  | .apply op ns _ => appliedFaces op (facesOfAll ns)
  | .register .. | .keyword .. => []

def facesOfAll : List Node → List (List Face)
  | [] => []
  | n :: ns => n.faces :: facesOfAll ns

end

theorem isNamePart_of_isDigit {c : Char} (hc : c.isDigit = true) : isNamePart c = true := by
  rw [isDigit_iff] at hc
  rw [isNamePart_iff]
  omega

/-- A decimal number. -/
theorem faces_decimal {c : Char} {cs rest : List Char} (hc : c.isDigit = true)
    (hcs : cs.all Char.isDigit = true) (hrest : Delimited rest) :
    faces (c :: (cs ++ rest)) = (.number .decimal, c :: cs) :: faces rest := by
  have hname : cs.all isNamePart = true :=
    List.all_eq_true.mpr fun d hd => isNamePart_of_isDigit (List.all_eq_true.mp hcs d hd)
  refine faces_cons cs (not_isBlank_of_isNamePart (isNamePart_of_isDigit hc)) ?_ rfl
  have hscan : Lexeme.scan c (cs ++ rest) =
      Lexeme.run (.number .decimal) isNamePart c (cs ++ rest) := by
    by_cases hmark : c ∈ Lexeme.marks
    · have hzero : ∀ k ∈ Lexeme.marks, k.isDigit = true → k = '0' := by
        simp [Lexeme.marks]
      obtain rfl := hzero c hmark hc
      show Lexeme.zero '0' (cs ++ rest) = _
      have hbase : Lexeme.zeroBase cs = .decimal := by
        cases cs with
        | nil => rfl
        | cons d ds =>
            rw [List.all_cons, Bool.and_eq_true] at hcs
            refine if_neg ?_
            rintro (rfl | rfl) <;> exact absurd hcs.1 (by decide)
      rw [Lexeme.zero_eq, wordOf, (takeWhile_of_delimited hname hrest).1, hbase]
    · rw [Lexeme.scan_of_not_mark hmark, if_pos hc]
  rw [hscan]
  exact run_of_delimited hname hrest

/-- A name that no register has. -/
theorem faces_identifier (i : Identifier) (hi : isRegisterWord i.chars = false)
    {rest : List Char} (hrest : Delimited rest) :
    faces (i.chars ++ rest) = (.name, i.chars) :: faces rest := by
  obtain ⟨chars, hvalid⟩ := i
  cases chars with
  | nil => cases hvalid
  | cons c cs =>
      rw [isIdentifier, Bool.and_eq_true] at hvalid
      dsimp only at hi ⊢
      by_cases hword : startsWord c = true
      · exact faces_word cs hword hvalid.2 hrest
      · have hv : c = 'v' ∨ c = 'V' := by
          by_contra h
          refine hword ?_
          rw [startsWord, hvalid.1]
          simpa [not_or] using h
        have hread : Lexeme.scan c (cs ++ rest) = Lexeme.registerOrName c (cs ++ rest) := by
          rcases hv with rfl | rfl <;> rfl
        have hkind : Lexeme.registerOrNameKind cs = .name := by
          cases cs with
          | nil => rfl
          | cons d ds =>
              cases ds with
              | nil =>
                  have hmark : (c = 'v' || c = 'V') = true := by simpa using hv
                  rw [isRegisterWord, hmark, Bool.true_and] at hi
                  rw [Lexeme.registerOrNameKind, Option.isSome_eq_false_iff.mp hi |>
                    Option.isNone_iff_eq_none.mp]
              | cons e es => rfl
        show faces (c :: (cs ++ rest)) = _
        refine faces_cons cs (not_isBlank_of_isNamePart (isNamePart_of_isNameStart hvalid.1)) ?_ rfl
        rw [hread, Lexeme.registerOrName_eq, wordOf, (takeWhile_of_delimited hvalid.2 hrest).1,
          hkind]
        exact run_of_delimited hvalid.2 hrest

/-- An operator in front of its operand, which does not start with an equality sign. -/
theorem faces_prefix {op : Operator} (hop : op.arity = 1) {rest : List Char}
    (hrest : rest.head? ≠ some '=') :
    faces (op.symbol ++ rest) = (.operator op.spelled, op.symbol) :: faces rest := by
  cases op with
  | neg => exact faces_cons [] rfl rfl rfl
  | complement => exact faces_cons [] rfl rfl rfl
  | not => exact faces_cons [] rfl (Lexeme.pair_of_head hrest) rfl
  | _ => cases hop

/-- An operator between blanks. -/
theorem faces_infix {op : Operator} (hop : op.arity = 2) (rest : List Char) :
    faces (' ' :: (op.symbol ++ ' ' :: rest)) = (.operator op, op.symbol) :: faces rest := by
  rw [faces_blank rfl, ← faces_blank (c := ' ') rfl rest]
  cases op with
  | neg | complement | not => cases hop
  | logicalOr | logicalAnd | eq | ne | le | ge | shl | shr => exact faces_cons [_] rfl rfl rfl
  | _ => exact faces_cons [] rfl rfl rfl

theorem integerChars_of_nonneg {k : Int} (hk : 0 ≤ k) :
    Node.integerChars k = Numeral.digits 10 k.natAbs :=
  if_neg (Int.not_lt.mpr hk)

theorem isDigit_digitChar : ∀ d < 10, (Nat.digitChar d).isDigit = true := by
  decide

/-- The digits of a number that is not negative: at least one. -/
theorem exists_digits (k : Nat) :
    ∃ c cs, Numeral.digits 10 k = c :: cs ∧ c.isDigit = true ∧ cs.all Char.isDigit = true := by
  have hall : ∀ c ∈ Numeral.digits 10 k, c.isDigit = true := by
    intro c hc
    obtain ⟨d, hd, rfl⟩ := Numeral.mem_digits (by decide) hc
    exact isDigit_digitChar d hd
  cases hdigits : Numeral.digits 10 k with
  | nil =>
      rw [Numeral.digits_eq (by decide)] at hdigits
      split at hdigits <;> simp at hdigits
  | cons c cs =>
      rw [hdigits] at hall
      exact ⟨c, cs, rfl, hall c List.mem_cons_self,
        List.all_eq_true.mpr fun d hd => hall d (List.mem_cons_of_mem c hd)⟩

/-- An operator has one operand or two. -/
theorem operands_cases {op : Operator} {ns : List Node} (h : ns.length = op.arity) :
    (∃ a, ns = [a] ∧ op.arity = 1) ∨ ∃ a b, ns = [a, b] ∧ op.arity = 2 := by
  have harity : op.arity = 1 ∨ op.arity = 2 := by cases op <;> decide
  rcases harity with hop | hop
  · obtain ⟨a, ha⟩ := List.length_eq_one_iff.mp (h.trans hop)
    exact Or.inl ⟨a, ha, hop⟩
  · obtain ⟨a, b, hab⟩ := List.length_eq_two.mp (h.trans hop)
    exact Or.inr ⟨a, b, hab, hop⟩

/-- The text of a tree starts with no second character of an operator. -/
theorem head_chars {n : Node} (hn : n.Printable) (rest : List Char) :
    (n.chars ++ rest).head? ≠ some '=' := by
  have hother : ∀ {c : Char} {cs : List Char}, isNamePart c = true →
      (c :: cs).head? ≠ some '=' := by
    rintro c cs hc h
    cases Option.some_inj.mp h
    cases hc
  cases hn with
  | @number v s hv =>
      obtain ⟨c, cs, hdigits, hc, -⟩ := exists_digits v.toInt.natAbs
      rw [Node.chars, integerChars_of_nonneg hv, hdigits]
      exact hother (isNamePart_of_isDigit hc)
  | @name i s hi =>
      obtain ⟨chars, hvalid⟩ := i
      cases chars with
      | nil => cases hvalid
      | cons c cs =>
          rw [isIdentifier, Bool.and_eq_true] at hvalid
          exact hother (isNamePart_of_isNameStart hvalid.1)
  | @apply op ns s harity hns =>
      rcases operands_cases harity with ⟨a, rfl, hop⟩ | ⟨a, b, rfl, hop⟩
      · cases op with
        | neg | complement | not => exact fun h => absurd (Option.some_inj.mp h) (by decide)
        | _ => cases hop
      · exact fun h => absurd (Option.some_inj.mp h) (by decide)

/-- **The tokens of a printed tree.** -/
theorem faces_chars {n : Node} (hn : n.Printable) {rest : List Char} (hrest : Delimited rest) :
    Asm.faces (n.chars ++ rest) = n.faces ++ Asm.faces rest := by
  induction hn generalizing rest with
  | @number v s hv =>
      obtain ⟨c, cs, hdigits, hc, hcs⟩ := exists_digits v.toInt.natAbs
      rw [Node.chars, Node.faces, integerChars_of_nonneg hv, hdigits]
      exact faces_decimal hc hcs hrest
  | @name i s hi => exact faces_identifier i hi hrest
  | @apply op ns s harity hns ih =>
      rcases operands_cases harity with ⟨a, rfl, hop⟩ | ⟨a, b, rfl, hop⟩
      · have ha := hns a List.mem_cons_self
        show faces ((op.symbol ++ a.chars) ++ rest) =
          ((.operator op.spelled, op.symbol) :: a.faces) ++ faces rest
        rw [List.append_assoc, faces_prefix hop (head_chars ha rest),
          ih a List.mem_cons_self hrest]
        rfl
      · have hb : b ∈ [a, b] := List.mem_cons_of_mem a List.mem_cons_self
        show faces ((['('] ++ a.chars ++ [' '] ++ op.symbol ++ [' '] ++ b.chars ++ [')']) ++ rest) =
          (((.parenOpen, ['(']) :: a.faces ++ (.operator op, op.symbol) :: b.faces ++
            [(.parenClose, [')'])]) ++ faces rest)
        simp only [List.append_assoc, List.cons_append, List.nil_append]
        have hopen : ∀ cs, faces ('(' :: cs) = (.parenOpen, ['(']) :: faces cs :=
          fun cs => faces_cons [] rfl rfl rfl
        have hclose : faces (')' :: rest) = (.parenClose, [')']) :: faces rest :=
          faces_cons [] rfl rfl rfl
        rw [hopen, ih a List.mem_cons_self (delimited_cons rfl _), faces_infix hop,
          ih b hb (delimited_cons rfl _), hclose]

/-! ### Reading -/

/-- Where an operand is due, the tokens are read as the tree and settled. -/
def ReadsAs (ts : List Token) (m : Node) : Prop :=
  ∀ (stop : Token) (frames : List Frame) (us : List Token),
    readFrom [] stop frames none (ts ++ us) =
      readFrom [] stop (Frame.settle frames m).1 (some (Frame.settle frames m).2) us

/-- A token that is an operand. -/
theorem readsAs_of_operandStart {t : Token} {m : Node} (h : operandStart [] t = .ok (.inr m)) :
    ReadsAs [t] m := by
  intro stop frames us
  exact readFrom_starts h stop frames us

theorem numberOf_digits {v : Int64} (hv : 0 ≤ v.toInt) {t : Token}
    (ht : t.chars = Node.integerChars v.toInt) : numberOf .decimal t = .ok v := by
  have hlt := v.toInt_lt
  have hread : Numeral.read 10 0x7FFFFFFFFFFFFFFF (Numeral.digits 10 v.toInt.natAbs) =
      .ok v.toInt.natAbs := by
    obtain ⟨c, cs, hdigits, -, -⟩ := exists_digits v.toInt.natAbs
    have hall : Numeral.readFrom 10 0x7FFFFFFFFFFFFFFF 0
        ((Numeral.digits 10 v.toInt.natAbs).map id) = .ok v.toInt.natAbs :=
      Numeral.readFrom_digits (by decide) (by decide) (by omega)
    rw [List.map_id] at hall
    rw [Numeral.read, hall, hdigits]
    rfl
  have hvalue : Int64.ofNat v.toInt.natAbs = v := by
    apply Int64.toInt_inj.mp
    rw [Int64.toInt_ofNat_of_lt (by omega)]
    omega
  have hread' : Numeral.read Base.decimal.radix 0x7FFFFFFFFFFFFFFF
      (t.chars.drop Base.decimal.markLength) = .ok v.toInt.natAbs := by
    rw [ht, integerChars_of_nonneg hv]
    exact hread
  rw [numberOf, hread']
  exact congrArg Except.ok hvalue

/-- An operator in front of a tree. -/
theorem ReadsAs.prefixed {op : Operator} (hop : op.arity = 1) {t : Token}
    (ht : t.kind = .operator op.spelled) {ts : List Token} {m : Node} (h : ReadsAs ts m) :
    ReadsAs (t :: ts) (.apply op [m] (t.span.join m.span)) := by
  intro stop frames us
  have hstart : operandStart [] t = .ok (.inl (.prefixed op t.span)) := by
    unfold operandStart
    rw [ht]
    dsimp only
    rw [Operator.asPrefix_spelled hop]
  rw [List.cons_append, readFrom_opens hstart]
  exact h stop (.prefixed op t.span :: frames) us

/-- An operator between two trees, in parentheses. The operator closes nothing, and the closing
parenthesis closes the operator whatever it binds like. -/
theorem ReadsAs.binary {op : Operator} (hop : op.arity = 2) {opening t closing : Token}
    (hopening : opening.kind = .parenOpen) (ht : t.kind = .operator op)
    (hclosing : closing.kind = .parenClose) {ts us : List Token} {m k : Node} (hm : ReadsAs ts m)
    (hk : ReadsAs us k) :
    ReadsAs (opening :: (ts ++ t :: (us ++ [closing])))
      (.apply op [m, k] (opening.span.join closing.span)) := by
  intro stop frames vs
  have hstart : operandStart [] opening = .ok (.inl (.paren opening.span)) := by
    unfold operandStart
    rw [hopening]
  obtain ⟨strength, hstrength⟩ : ∃ strength, op.precedence = some strength :=
    Option.isSome_iff_exists.mp (by rw [Operator.precedence_isSome, hop]; rfl)
  have hoperator : continueWith (.paren opening.span :: frames) m t =
      .operand (.binary op m :: .paren opening.span :: frames) := by
    unfold continueWith
    rw [ht]
    dsimp only
    rw [hstrength]
    rfl
  have hclose : continueWith (.binary op m :: .paren opening.span :: frames) k closing =
      .operator (Frame.settle frames (.apply op [m, k] (opening.span.join closing.span))).1
        (Frame.settle frames (.apply op [m, k] (opening.span.join closing.span))).2 := by
    unfold continueWith
    rw [hclosing]
    dsimp only
    rw [Frame.close, hstrength]
    rfl
  calc readFrom [] stop frames none (opening :: (ts ++ t :: (us ++ [closing])) ++ vs)
      = readFrom [] stop (.paren opening.span :: frames) none
          (ts ++ (t :: (us ++ closing :: vs))) := by
        rw [List.cons_append, readFrom_opens hstart]
        simp only [List.append_assoc, List.cons_append, List.nil_append]
    _ = readFrom [] stop (.paren opening.span :: frames) (some m) (t :: (us ++ closing :: vs)) :=
        hm stop _ _
    _ = readFrom [] stop (.binary op m :: .paren opening.span :: frames) none
          (us ++ closing :: vs) := readFrom_operand hoperator stop _
    _ = readFrom [] stop (.binary op m :: .paren opening.span :: frames) (some k)
          (closing :: vs) := hk stop _ _
    _ = _ := readFrom_operator hclose stop vs

/-- **The tokens of a printed tree are read as the tree**, at some places. -/
theorem readFrom_of_faces {n : Node} (hn : n.Printable) {ts : List Token}
    (hts : ts.map Token.face = n.faces) : ∃ m, n.Like Likeness.layout m ∧ ReadsAs ts m := by
  induction hn generalizing ts with
  | @number v s hv =>
      obtain ⟨t, rfl, hkind, hchars⟩ := exists_of_map_face_singleton hts
      refine ⟨.number v t.span, .number trivial, readsAs_of_operandStart ?_⟩
      unfold operandStart
      rw [hkind]
      dsimp only
      rw [numberOf_digits hv hchars]
      rfl
  | @name i s hi =>
      obtain ⟨t, rfl, hkind, hchars⟩ := exists_of_map_face_singleton hts
      refine ⟨.name i t.span, .name rfl trivial, readsAs_of_operandStart ?_⟩
      unfold operandStart
      rw [hkind]
      dsimp only
      rw [nameOf, identifierOf, hchars, Identifier.ofChars?_chars]
      rfl
  | @apply op ns s harity hns ih =>
      rcases operands_cases harity with ⟨a, rfl, hop⟩ | ⟨a, b, rfl, hop⟩
      · obtain ⟨t, us, rfl, hkind, -, hus⟩ := exists_of_map_face hts
        obtain ⟨m, hm, hreads⟩ := ih a List.mem_cons_self hus
        exact ⟨_, .apply (.cons hm .nil) trivial, hreads.prefixed hop hkind⟩
      · have hb : b ∈ [a, b] := List.mem_cons_of_mem a List.mem_cons_self
        have hfaces : ts.map Token.face = (.parenOpen, ['(']) :: (a.faces ++
            (.operator op, op.symbol) :: (b.faces ++ [(.parenClose, [')'])])) := by
          rw [hts]
          show (.parenOpen, ['(']) :: a.faces ++ (.operator op, op.symbol) :: b.faces ++
            [(.parenClose, [')'])] = _
          simp only [List.append_assoc, List.cons_append]
        obtain ⟨opening, us, rfl, hopening, -, hus⟩ := exists_of_map_face hfaces
        obtain ⟨first, others, rfl, hfirst, hothers⟩ := List.map_eq_append_iff.mp hus
        obtain ⟨t, vs, rfl, hkind, -, hvs⟩ := exists_of_map_face hothers
        obtain ⟨second, last, rfl, hsecond, hlast⟩ := List.map_eq_append_iff.mp hvs
        obtain ⟨closing, rfl, hclosing, -⟩ := exists_of_map_face_singleton hlast
        obtain ⟨m, hm, hreads⟩ := ih a List.mem_cons_self hfirst
        obtain ⟨k, hk, hreads'⟩ := ih b hb hsecond
        exact ⟨_, .apply (.cons hm (.cons hk .nil)) trivial,
          hreads.binary hop hopening hkind hclosing hreads'⟩

/-! ### Source texts -/

theorem isPlain_symbol (op : Operator) : op.symbol.all isPlain = true := by
  cases op <;> rfl

/-- The text of a tree is one line without a comment. -/
theorem isPlain_chars {n : Node} (hn : n.Printable) : n.chars.all isPlain = true := by
  induction hn with
  | @number v s hv =>
      obtain ⟨c, cs, hdigits, hc, hcs⟩ := exists_digits v.toInt.natAbs
      rw [Node.chars, integerChars_of_nonneg hv, hdigits, List.all_eq_true]
      intro d hd
      refine isPlain_of_isNamePart (isNamePart_of_isDigit ?_)
      rcases List.mem_cons.mp hd with rfl | hd
      · exact hc
      · exact List.all_eq_true.mp hcs d hd
  | @name i s hi =>
      obtain ⟨chars, hvalid⟩ := i
      cases chars with
      | nil => rfl
      | cons c cs =>
          rw [isIdentifier, Bool.and_eq_true] at hvalid
          rw [Node.chars, List.all_cons, isPlain_of_isNamePart (isNamePart_of_isNameStart hvalid.1)]
          exact List.all_eq_true.mpr fun d hd =>
            isPlain_of_isNamePart (List.all_eq_true.mp hvalid.2 d hd)
  | @apply op ns s harity hns ih =>
      rcases operands_cases harity with ⟨a, rfl, hop⟩ | ⟨a, b, rfl, hop⟩
      · show (op.symbol ++ a.chars).all isPlain = true
        rw [List.all_append, isPlain_symbol, ih a List.mem_cons_self]
        rfl
      · show (['('] ++ a.chars ++ [' '] ++ op.symbol ++ [' '] ++ b.chars ++ [')']).all isPlain = true
        simp only [List.all_append, isPlain_symbol, ih a List.mem_cons_self,
          ih b (List.mem_cons_of_mem a List.mem_cons_self)]
        rfl

/-- No comma and no colon is among the tokens of a tree, and there is a token. -/
theorem kinds_faces {n : Node} (hn : n.Printable) :
    n.faces ≠ [] ∧ ∀ f ∈ n.faces, f.1 ≠ .comma := by
  induction hn with
  | number => exact ⟨List.cons_ne_nil _ _, fun f hf => by rw [List.mem_singleton.mp hf]; simp⟩
  | name => exact ⟨List.cons_ne_nil _ _, fun f hf => by rw [List.mem_singleton.mp hf]; simp⟩
  | @apply op ns s harity hns ih =>
      rcases operands_cases harity with ⟨a, rfl, hop⟩ | ⟨a, b, rfl, hop⟩
      · refine ⟨List.cons_ne_nil _ _, fun f hf => ?_⟩
        rcases List.mem_cons.mp hf with rfl | hf
        · simp
        · exact (ih a List.mem_cons_self).2 f hf
      · refine ⟨List.cons_ne_nil _ _, fun f hf => ?_⟩
        have ha := (ih a List.mem_cons_self).2
        have hb := (ih b (List.mem_cons_of_mem a List.mem_cons_self)).2
        have hmem : f ∈ (.parenOpen, ['(']) :: a.faces ++ (.operator op, op.symbol) :: b.faces ++
          [(.parenClose, [')'])] := hf
        simp only [List.cons_append, List.mem_cons, List.mem_append, List.not_mem_nil,
          or_false] at hmem
        rcases hmem with rfl | (hf | rfl | hf) | rfl
        · simp
        · exact ha f hf
        · simp
        · exact hb f hf
        · simp

/-- Tokens that are read as a tree are a whole expression. -/
theorem ReadsAs.readValue {t : Token} {ts : List Token} {m : Node} (h : ReadsAs (t :: ts) m)
    (stop : Token) : readValue [] ⟨t :: ts, stop⟩ = .ok (m, []) := by
  have hread := h stop [] []
  rw [List.append_nil] at hread
  show readFrom [] stop [] none (t :: ts) = _
  rw [hread]
  rfl

/-- The source text `.word` and the text of a tree. -/
def wordText (n : Node) : String := ".word " ++ n.text

/-- The source text is one line, which has no comment. -/
theorem lines_wordText {n : Node} (hn : n.Printable) :
    ∃ l, lines (wordText n) = [l] ∧ l.comment? = none ∧
      l.tokens.map Token.face = (.directive, ".word".toList) :: n.faces := by
  have hchars : (wordText n).toList = '.' :: ("word".toList ++ ' ' :: n.chars) := by
    have htext : n.text.toList = n.chars := String.toList_ofList
    rw [wordText, String.toList_append, htext]
    rfl
  have hplain : ∀ c ∈ (wordText n).toList, c ≠ '\n' ∧ c ≠ ';' := by
    have hall : (wordText n).toList.all isPlain = true := by
      rw [hchars, List.all_cons, List.all_append, List.all_cons, isPlain_chars hn]
      rfl
    intro c hc
    have h := List.all_eq_true.mp hall c hc
    rw [isPlain, Bool.and_eq_true, decide_eq_true_iff, decide_eq_true_iff] at h
    exact h
  have hfaces : faces (wordText n).toList = (.directive, ".word".toList) :: n.faces := by
    have hword : ("word".toList ++ ' ' :: n.chars).takeWhile isNamePart = "word".toList :=
      (takeWhile_of_delimited rfl (delimited_cons rfl n.chars)).1
    have hscan : Lexeme.scan '.' ("word".toList ++ ' ' :: n.chars) =
        ⟨.directive, '.' :: "word".toList, ' ' :: n.chars⟩ := by
      show Lexeme.dot '.' ("word".toList ++ ' ' :: n.chars) = _
      rw [Lexeme.dot_eq, wordOf, hword]
      exact run_of_delimited rfl (delimited_cons rfl n.chars)
    have hlast := faces_chars hn delimited_nil
    rw [List.append_nil, faces_nil, List.append_nil] at hlast
    rw [hchars, faces_cons "word".toList rfl hscan rfl, faces_blank rfl, hlast]
    rfl
  obtain ⟨hcode, hcomment⟩ := code_of_plain (l := ⟨0, (wordText n).toList, false⟩)
    fun c hc => (hplain c hc).2
  refine ⟨_, linesFrom_last fun c hc => (hplain c hc).1, hcomment, ?_⟩
  rw [Line.tokens, faces_tokensFrom, hcode, hfaces]

/-- `.word` and one tree behind it. -/
theorem readBody_word {t : Token} (hkind : t.kind = .directive)
    (hchars : t.chars = ".word".toList) {stop : Token} {ts : List Token}
    (hcomma : ∀ u ∈ ts, u.kind ≠ .comma) {m : Node}
    (hread : readValue [] ⟨ts, stop⟩ = .ok (m, [])) :
    readBody .empty stop (t :: ts) = .ok (.empty, some (.words [m]), none) := by
  have hdirective : Directive.ofToken? t = some .words := by
    rw [Directive.ofToken?, hchars]
    rfl
  have hpieces : readPieces (readValue []) (pieces stop ts) = .ok ([m], none) := by
    rw [pieces_of_no_comma hcomma, readPieces, hread]
    rfl
  have hall : readAll [] stop .words ts = .ok (some (.words [m]), none) := by
    unfold readAll
    rw [hpieces]
    rfl
  unfold readBody
  dsimp only
  rw [hkind]
  dsimp only
  rw [readDirective, hdirective]
  dsimp only
  rw [show Scope.empty.aliases = [] from rfl, hall]
  rfl

/-- **Printed trees are read back**: as one statement with one tree that differs in places only, and
without a message. -/
theorem parse_wordText {n : Node} (hn : n.Printable) :
    ∃ m s, parse (wordText n) = ⟨[⟨none, some (.words [m]), none, s⟩], .empty, []⟩ ∧
      n.Like Likeness.layout m := by
  obtain ⟨l, hlines, hcomment, hfaces⟩ := lines_wordText hn
  obtain ⟨t, ts, htokens, hkind, hchars, hts⟩ := exists_of_map_face hfaces
  obtain ⟨hne, hkinds⟩ := kinds_faces hn
  obtain ⟨m, hm, hreads⟩ := readFrom_of_faces hn hts
  have hcomma : ∀ u ∈ ts, u.kind ≠ .comma := fun u hu =>
    hkinds u.face (hts ▸ List.mem_map_of_mem hu)
  have hread : readValue [] ⟨ts, l.stop⟩ = .ok (m, []) := by
    cases ts with
    | nil => exact absurd hts.symm hne
    | cons u us => exact hreads.readValue l.stop
  have hsplit : splitLabel (t :: ts) = (none, t :: ts) := by
    cases ts with
    | nil => rfl
    | cons u us =>
        refine if_neg fun h => ?_
        rw [hkind] at h
        cases h.1
  have hspan : l.commentSpan? = none := by rw [Line.commentSpan?, hcomment]; rfl
  obtain ⟨s, hs⟩ : ∃ s, statementOf? l none (some (.words [m])) =
      some ⟨none, some (.words [m]), none, s⟩ := ⟨_, by rw [statementOf?, hspan]; rfl⟩
  have hline : parseLine .empty l = ⟨.empty, [], some ⟨none, some (.words [m]), none, s⟩⟩ := by
    unfold parseLine
    rw [htokens, hsplit]
    dsimp only
    unfold parseRest
    rw [readBody_word hkind hchars hcomma hread]
    dsimp only
    rw [hs]
  refine ⟨m, s, ?_, hm⟩
  rw [parse, hlines, parseLines, hline]
  rfl

end Chip8.Asm
