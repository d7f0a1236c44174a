import Chip8.Proofs.Asm.Declarations
import Chip8.Proofs.Asm.Printing

/-! # Printing what was read

Every expression that a source text has can be printed and read back.

* **Tokens.** No token that is a name is written like a register (`word_of_mem_tokensFrom`).
* **Expressions.** What is read is `Printable`. The invariant of the reading loop is about what is open:
  operators in front wait for one operand, those behind a printable operand for the second one
  (`Frame.Printable`).
* `printable_of_parse` takes that to the statements of a source text, and
  `parsing_inverts_printing` is the whole. -/

namespace Chip8.Asm

/-! ### Tokens -/

/-- A token that is a name is not written like a register. -/
def Token.IsWord (t : Token) : Prop := t.kind = .name → isRegisterWord t.chars = false

theorem Lexeme.isRegisterWord_scan {c : Char} {cs : List Char} (h : (scan c cs).kind = .name) :
    isRegisterWord (scan c cs).chars = false := by
  obtain ⟨kind, taken, rest, hlook⟩ := looksAhead_scan c cs
  have hscan : scan c cs = ⟨kind, c :: taken, rest⟩ := by
    rw [hlook.split]
    exact hlook.stays (SameBehind.refl rest)
  by_contra hregister
  rw [Bool.not_eq_false, hscan] at hregister
  match taken, hregister, hscan with
  | [d], hregister, hscan =>
      rw [isRegisterWord, Bool.and_eq_true, Bool.or_eq_true, decide_eq_true_iff,
        decide_eq_true_iff] at hregister
      have hread : scan c cs = registerOrName c cs := by
        rcases hregister.1 with rfl | rfl <;> rfl
      obtain ⟨n, hn⟩ := Option.isSome_iff_exists.mp hregister.2
      rw [hread, registerOrName_eq] at hscan h
      have hword : wordOf cs = [d] := (List.cons.inj (congrArg Lexeme.chars hscan)).2
      rw [hword] at h
      change registerOrNameKind [d] = .name at h
      rw [registerOrNameKind, hn] at h
      cases h

theorem word_of_mem_tokensFrom {skip offset : Nat} {cs : List Char} {t : Token}
    (ht : t ∈ tokensFrom skip offset cs) : t.IsWord := by
  induction cs generalizing skip offset with
  | nil => cases ht
  | cons c cs ih =>
      rw [tokensFrom.eq_def] at ht
      dsimp only at ht
      split at ht
      · exact ih ht
      · split at ht
        · exact ih ht
        · rcases List.mem_cons.mp ht with rfl | ht
          · exact Lexeme.isRegisterWord_scan
          · exact ih ht

/-! ### Expressions -/

/-- What is open in front of an operand will be a printable tree. -/
def Frame.Printable : Frame → Prop
  | .prefixed op _ => op.arity = 1
  | .paren _ => True
  | .binary op left => op.arity = 2 ∧ left.Printable

variable {aliases : Aliases} {frames : List Frame} {n : Node} {t : Token}

theorem Node.Printable.unary {op : Operator} (hop : op.arity = 1) (hn : n.Printable) (s : Span) :
    (Node.apply op [n] s).Printable :=
  .apply hop.symm fun m hm => by
    rw [List.mem_singleton.mp hm]
    exact hn

theorem Node.Printable.binary {op : Operator} (hop : op.arity = 2) {m : Node} (hm : m.Printable)
    (hn : n.Printable) (s : Span) : (Node.apply op [m, n] s).Printable :=
  .apply hop.symm fun k hk => by
    rcases List.mem_cons.mp hk with rfl | hk
    · exact hm
    · rw [List.mem_singleton.mp hk]
      exact hn

theorem Node.Printable.withSpan (hn : n.Printable) (place : Span) :
    (n.withSpan place).Printable := by
  cases hn with
  | number h => exact .number h
  | name h => exact .name h
  | apply h h' => exact .apply h h'

theorem printable_settle (hframes : ∀ f ∈ frames, f.Printable) (hn : n.Printable) :
    (∀ f ∈ (Frame.settle frames n).1, f.Printable) ∧ (Frame.settle frames n).2.Printable := by
  induction frames generalizing n with
  | nil => exact ⟨hframes, hn⟩
  | cons frame frames ih =>
      cases frame with
      | prefixed op s =>
          have hop : op.arity = 1 := hframes _ List.mem_cons_self
          exact ih (fun f hf => hframes f (List.mem_cons_of_mem _ hf)) (hn.unary hop _)
      | paren s => exact ⟨hframes, hn⟩
      | binary op left => exact ⟨hframes, hn⟩

theorem printable_close (strength : Nat) (hframes : ∀ f ∈ frames, f.Printable)
    (hn : n.Printable) :
    (∀ f ∈ (Frame.close strength frames n).1, f.Printable) ∧
      (Frame.close strength frames n).2.Printable := by
  induction frames generalizing n with
  | nil => exact ⟨hframes, hn⟩
  | cons frame frames ih =>
      cases frame with
      | prefixed op s => exact ⟨hframes, hn⟩
      | paren s => exact ⟨hframes, hn⟩
      | binary op left =>
          obtain ⟨hop, hleft⟩ : op.arity = 2 ∧ left.Printable := hframes _ List.mem_cons_self
          rw [Frame.close]
          split
          · exact ih (fun f hf => hframes f (List.mem_cons_of_mem _ hf)) (hleft.binary hop hn _)
          · exact ⟨hframes, hn⟩

/-- What reading goes on with is printable. -/
def Continuation.Printable : Continuation → Prop
  | .operand frames => ∀ f ∈ frames, f.Printable
  | .operator frames n => (∀ f ∈ frames, f.Printable) ∧ n.Printable
  | .done n => n.Printable
  | .unclosed => True

theorem printable_finish (hframes : ∀ f ∈ frames, f.Printable) (hn : n.Printable) :
    (finish frames n).Printable := by
  have hclose := printable_close 0 hframes hn
  unfold finish
  split
  · rename_i m hm
    rw [hm] at hclose
    exact hclose.2
  · trivial

theorem printable_continueWith (hframes : ∀ f ∈ frames, f.Printable) (hn : n.Printable)
    (t : Token) : (continueWith frames n t).Printable := by
  unfold continueWith
  split
  · rename_i op _
    split
    · rename_i strength hstrength
      have hop : op.arity = 2 := by
        have h := op.precedence_isSome
        rw [hstrength] at h
        exact (beq_iff_eq.mp h.symm)
      have hclose := printable_close strength hframes hn
      intro f hf
      rcases List.mem_cons.mp hf with rfl | hf
      · exact ⟨hop, hclose.2⟩
      · exact hclose.1 f hf
    · exact printable_finish hframes hn
  · have hclose := printable_close 0 hframes hn
    split
    · rename_i s frames' m hm
      rw [hm] at hclose
      exact printable_settle (fun f hf => hclose.1 f (List.mem_cons_of_mem _ hf))
        (hclose.2.withSpan _)
    · rename_i m _ hm
      rw [hm] at hclose
      exact hclose.2
  · exact printable_finish hframes hn

theorem nonneg_of_numberOf {base : Base} {v : Int64} (h : numberOf base t = .ok v) :
    0 ≤ v.toInt := by
  unfold numberOf at h
  split at h
  · rename_i k hk
    cases h
    have hle := Numeral.read_le hk
    rw [Int64.toInt_ofNat_of_lt (by omega)]
    omega
  · cases h

/-- What starts where an operand is due is printable, or a frame that will be. -/
theorem printable_operandStart (ht : t.IsWord) {x : Frame ⊕ Node}
    (h : operandStart aliases t = .ok x) : Sum.elim Frame.Printable Node.Printable x := by
  unfold operandStart at h
  cases hkind : t.kind with
  | number base =>
      rw [hkind] at h
      obtain ⟨v, hv, rfl⟩ := map_eq_ok h
      exact .number (nonneg_of_numberOf hv)
  | name =>
      rw [hkind] at h
      obtain ⟨m, hm, rfl⟩ := map_eq_ok h
      unfold nameOf at hm
      split at hm
      · cases hm
      · rename_i i hi
        split at hm
        · cases hm
        · cases hm
          exact .name (by rw [identifierOf_eq_ok hi]; exact ht hkind)
  | parenOpen =>
      rw [hkind] at h
      cases h
      trivial
  | operator op =>
      rw [hkind] at h
      dsimp only at h
      split at h
      · rename_i op' hop
        cases h
        show op'.arity = 1
        cases op <;> cases hop <;> rfl
      · cases h
  | _ =>
      rw [hkind] at h
      cases h

/-- **What is read as an expression is printable.** The induction is on the tokens. -/
theorem printable_readFrom {stop : Token} {operand : Option Node} {ts rest : List Token}
    (hts : ∀ t ∈ ts, t.IsWord) (hframes : ∀ f ∈ frames, f.Printable)
    (hoperand : ∀ m, operand = some m → m.Printable)
    (h : readFrom aliases stop frames operand ts = .ok (n, rest)) : n.Printable := by
  induction ts generalizing frames operand with
  | nil =>
      unfold readFrom at h
      split at h
      · cases h
      · rename_i m
        have hfinish := printable_finish hframes (hoperand m rfl)
        split at h
        · rename_i k hk
          rw [hk] at hfinish
          cases h
          exact hfinish
        · cases h
  | cons t ts ih =>
      have hrest : ∀ u ∈ ts, u.IsWord := fun u hu => hts u (List.mem_cons_of_mem t hu)
      unfold readFrom at h
      split at h
      · split at h
        · cases h
        · rename_i frame hstart
          have hframe := printable_operandStart (hts t List.mem_cons_self) hstart
          refine ih hrest (fun f hf => ?_) (fun m hm => by cases hm) h
          rcases List.mem_cons.mp hf with rfl | hf
          · exact hframe
          · exact hframes f hf
        · rename_i m hstart
          have hm := printable_operandStart (hts t List.mem_cons_self) hstart
          have hsettle := printable_settle hframes hm
          exact ih hrest hsettle.1 (fun k hk => by cases hk; exact hsettle.2) h
      · rename_i m
        have hgo := printable_continueWith hframes (hoperand m rfl) t
        split at h
        · rename_i frames' hk
          rw [hk] at hgo
          exact ih hrest hgo (fun m hm => by cases hm) h
        · rename_i frames' k hk
          rw [hk] at hgo
          exact ih hrest hgo.1 (fun j hj => by cases hj; exact hgo.2) h
        · rename_i k hk
          rw [hk] at hgo
          cases h
          exact hgo
        · cases h

/-! ### Operands -/

/-- An operand that is an expression is printable. -/
def Node.Accepted (n : Node) : Prop := n.isExpression = true → n.Printable

theorem accepted_readTree {p : Piece} (hp : ∀ t ∈ p.tokens, t.IsWord) {rest : List Token}
    (h : readTree aliases p = .ok (n, rest)) : n.Accepted :=
  fun _ => printable_readFrom hp (fun f hf => by cases hf) (fun m hm => by cases hm) h

theorem accepted_readValue {p : Piece} (hp : ∀ t ∈ p.tokens, t.IsWord) {rest : List Token}
    (h : readValue aliases p = .ok (n, rest)) : n.Accepted := by
  unfold readValue at h
  split at h
  · cases h
  · exact accepted_readTree hp h

theorem accepted_wordOperand (ht : t.kind = .name) (hword : t.IsWord)
    (h : wordOperand aliases t = .ok n) : n.Accepted := by
  intro hn
  unfold wordOperand at h
  split at h
  · cases h
    cases hn
  · split at h
    · cases h
    · rename_i i hi
      split at h
      · cases h
        cases hn
      · cases h
        exact .name (by rw [identifierOf_eq_ok hi]; exact hword ht)

theorem accepted_readOperand {p : Piece} (hp : ∀ t ∈ p.tokens, t.IsWord) {rest : List Token}
    (h : readOperand aliases p = .ok (n, rest)) : n.Accepted := by
  obtain ⟨ts, stop⟩ := p
  unfold readOperand at h
  cases ts with
  | nil => exact accepted_readTree hp h
  | cons t ts =>
      dsimp only at h
      cases hkind : t.kind with
      | register r =>
          simp only [hkind] at h
          cases h
          exact fun hn => by cases hn
      | bracketOpen =>
          simp only [hkind] at h
          unfold bracketOperand at h
          dsimp only at h
          split at h
          · split at h
            · cases h
              exact fun hn => by cases hn
            · cases h
          · cases h
      | name =>
          cases ts with
          | nil =>
              simp only [hkind] at h
              obtain ⟨m, hm, hrest⟩ := map_eq_ok h
              cases hrest
              exact accepted_wordOperand hkind (hp t List.mem_cons_self) hm
          | cons u us =>
              simp only [hkind] at h
              exact accepted_readTree hp h
      | _ =>
          simp only [hkind] at h
          exact accepted_readTree hp h

/-- All operands of a list are accepted if each of the reads is. -/
theorem accepted_readPieces {read : Piece → Except Diagnostic (Node × List Token)} {stop : Token}
    {ts : List Token} (hts : ∀ t ∈ ts, t.IsWord)
    (hread : ∀ p : Piece, (∀ t ∈ p.tokens, t.IsWord) → ∀ n rest, read p = .ok (n, rest) →
      n.Accepted) {ns : List Node} {rest : Option Token}
    (h : readPieces read (pieces stop ts) = .ok (ns, rest)) : ∀ n ∈ ns, n.Accepted := by
  intro n hn
  obtain ⟨p, hp, rest', hread'⟩ := mem_of_readPieces h hn
  exact hread p (fun t ht => hts t (mem_of_mem_pieces hp ht)) n rest' hread'

theorem accepted_readSingle {read : Piece → Except Diagnostic (Node × List Token)} {stop : Token}
    {ts : List Token} (hts : ∀ t ∈ ts, t.IsWord)
    (hread : ∀ p : Piece, (∀ t ∈ p.tokens, t.IsWord) → ∀ n rest, read p = .ok (n, rest) →
      n.Accepted) {rest : Option Token}
    (h : readSingle read stop ts = .ok (n, rest)) : n.Accepted := by
  unfold readSingle at h
  obtain ⟨⟨m, rest'⟩, hm, hrest⟩ := map_eq_ok h
  cases hrest
  exact hread _ (fun t ht => hts t (mem_firstPiece ht)) _ rest' hm

/-! ### Statements -/

/-- All operands of a body are accepted. -/
def Body.Accepted (b : Body) : Prop := ∀ n ∈ b.nodes, n.Accepted

variable {stop : Token} {ts : List Token} {scope scope' : Scope}

theorem accepted_readInstruction {mnemonic : Token} (hts : ∀ t ∈ ts, t.IsWord) {b : Body}
    {rest : Option Token} (h : readInstruction aliases stop mnemonic ts = .ok (b, rest)) :
    b.Accepted := by
  obtain ⟨form, ns, rfl, -, hns, -⟩ := readInstruction_eq_ok.mp h
  unfold readOperands at hns
  split at hns
  · cases hns
    exact fun n hn => by cases hn
  · exact accepted_readPieces hts (fun p hp n rest => accepted_readOperand hp) hns

theorem accepted_readConstant (hts : ∀ t ∈ ts, t.IsWord) {b : Body} {rest : Option Token}
    (h : readConstant scope stop ts = .ok (scope', b, rest)) : b.Accepted := by
  obtain ⟨t, ts₁, i, comma, ts₂, value, rfl, ht, -, hcomma, hvalue, -⟩ := readConstant_eq_ok.mp h
  intro n hn
  rw [List.mem_singleton.mp hn]
  have hrest : ∀ u ∈ ts₂, u.IsWord := by
    intro u hu
    rw [(expect_eq_ok hcomma).2.2, (expect_eq_ok ht).2.2] at hu
    exact hts u (List.mem_of_mem_tail (List.mem_of_mem_tail hu))
  exact accepted_readSingle hrest (fun p hp n rest => accepted_readTree hp) hvalue

theorem accepted_readDirective {name : Token} (hts : ∀ t ∈ ts, t.IsWord) {b : Option Body}
    {rest : Option Token} (h : readDirective scope stop name ts = .ok (scope', b, rest)) :
    ∀ b', b = some b' → b'.Accepted := by
  cases readDirective_eq_ok.mp h with
  | constant _ hread =>
      rintro b' ⟨⟩
      exact accepted_readConstant hts hread
  | registerAlias => exact fun b' hb => by cases hb
  | @only make m hname hm =>
      have hmake : (make m).nodes = [m] := by
        rcases hname with ⟨-, rfl⟩ | ⟨-, rfl⟩ <;> rfl
      rintro b' ⟨⟩ n hn
      rw [hmake, List.mem_singleton] at hn
      rw [hn]
      exact accepted_readSingle hts (fun p hp n rest => accepted_readValue hp) hm
  | @all make ms hname hms =>
      have hmake : (make ms).nodes = ms := by
        rcases hname with ⟨-, rfl⟩ | ⟨-, rfl⟩ <;> rfl
      rintro b' ⟨⟩ n hn
      rw [hmake] at hn
      exact accepted_readPieces hts (fun p hp n rest => accepted_readValue hp) hms n hn

theorem accepted_readBody (hts : ∀ t ∈ ts, t.IsWord) {b : Option Body} {rest : Option Token}
    (h : readBody scope stop ts = .ok (scope', b, rest)) : ∀ b', b = some b' → b'.Accepted := by
  rcases readBody_cases h with
    ⟨-, rfl, -⟩ | ⟨t, us, rfl, ⟨-, -, c, rfl, hread⟩ | ⟨-, hread⟩⟩
  · exact fun b' hb => by cases hb
  · rintro b' ⟨⟩
    exact accepted_readInstruction (fun u hu => hts u (List.mem_cons_of_mem t hu)) hread
  · exact accepted_readDirective (fun u hu => hts u (List.mem_cons_of_mem t hu)) hread

theorem accepted_parseRest {l : Line} {label : Option Label} {reports : List Diagnostic}
    (hts : ∀ t ∈ ts, t.IsWord) {s : Statement}
    (h : (parseRest scope l label reports ts).statement = some s) : ∀ n ∈ s.nodes, n.Accepted := by
  unfold parseRest at h
  split at h
  · cases h
  · cases h
  · rename_i scope' b hb
    have haccepted := accepted_readBody hts hb
    intro n hn
    rw [Statement.nodes, body_of_statementOf? h] at hn
    cases b with
    | none => cases hn
    | some b => exact haccepted b rfl n hn

theorem accepted_parseLine {l : Line} {s : Statement}
    (h : (parseLine scope l).statement = some s) : ∀ n ∈ s.nodes, n.Accepted := by
  have hts : ∀ t ∈ l.tokens, t.IsWord := fun t ht => word_of_mem_tokensFrom ht
  unfold parseLine at h
  split at h
  · rename_i ts hsplit
    exact accepted_parseRest (fun t ht => hts t (mem_splitLabel hsplit t ht)) h
  · rename_i t ts hsplit
    split at h
    · cases h
    · exact accepted_parseRest (fun u hu => hts u (mem_splitLabel hsplit u hu)) h

theorem accepted_parseLines {ls : List Line} {s : Statement}
    (h : s ∈ (parseLines scope ls).statements) : ∀ n ∈ s.nodes, n.Accepted := by
  induction ls generalizing scope with
  | nil => cases h
  | cons l ls ih =>
      rcases List.mem_append.mp h with h | h
      · exact accepted_parseLine (Option.mem_toList.mp h)
      · exact ih h

/-- **Every expression of a source text is printable.** -/
theorem printable_of_parse {source : String} {s : Statement}
    (hs : s ∈ (parse source).statements) {n : Node} (hn : n ∈ s.nodes)
    (hexpression : n.isExpression = true) : n.Printable :=
  accepted_parseLines hs n hn hexpression

/-! ### Printing and reading -/

theorem SymbolTable.like_self (T : SymbolTable) : T.Like Likeness.layout T :=
  List.forall₂_same.mpr fun _ _ => ⟨rfl, rfl, trivial, rfl, rfl⟩

/-- **Parsing inverts printing.** The text of a tree of numbers that are not negative, of names that
no register has, and of operators with as many operands as they take is read as one tree that differs
in places only, without a message. All expressions of source texts are such trees; so printing and
reading one again changes neither its structure nor its value. -/
theorem parsing_inverts_printing :
    (∀ n : Node, n.Printable →
      ∃ m s, parse (".word " ++ n.text) = ⟨[⟨none, some (.words [m]), none, s⟩], .empty, []⟩ ∧
        n.Like Likeness.layout m) ∧
    ∀ (source : String) (s : Statement) (n : Node), s ∈ (parse source).statements →
      n ∈ s.nodes → n.isExpression = true →
      ∃ m t, parse (".word " ++ n.text) = ⟨[⟨none, some (.words [m]), none, t⟩], .empty, []⟩ ∧
        n.Like Likeness.layout m ∧
        ∀ symbols, SameValue (n.evaluate symbols) (m.evaluate symbols) := by
  refine ⟨fun n hn => parse_wordText hn, fun source s n hs hn hexpression => ?_⟩
  obtain ⟨m, t, hparse, hlike⟩ := parse_wordText (printable_of_parse hs hn hexpression)
  exact ⟨m, t, hparse, hlike, fun symbols => Node.Like.evaluate symbols.like_self n hlike⟩

/-- The tree of `--4 % x`, at no place in particular. -/
def signedTree : Node :=
  .apply .rem [.apply .neg [.apply .neg [.number 4 ⟨0, 0⟩] ⟨0, 0⟩] ⟨0, 0⟩,
    .name ⟨['x'], rfl⟩ ⟨0, 0⟩] ⟨0, 0⟩

/-- The tree of `1<-2` behind `.byte`. -/
def comparedTree : Node :=
  .apply .lt [.number 1 ⟨6, 1⟩, .apply .neg [.number 2 ⟨9, 1⟩] ⟨8, 2⟩] ⟨6, 4⟩

theorem parsing_inverts_printing_of_signs :
    (signedTree.Printable ∧ ∃ m s, parse (".word " ++ signedTree.text) =
      ⟨[⟨none, some (.words [m]), none, s⟩], .empty, []⟩ ∧
        signedTree.Like Likeness.layout m) ∧
    ⟨none, some (.bytes [comparedTree]), none, ⟨0, 10⟩⟩ ∈ (parse ".byte 1<-2").statements ∧
    ∃ m t, parse (".word " ++ comparedTree.text) =
      ⟨[⟨none, some (.words [m]), none, t⟩], .empty, []⟩ ∧
        comparedTree.Like Likeness.layout m ∧
        ∀ symbols, SameValue (comparedTree.evaluate symbols) (m.evaluate symbols) := by
  have hfour : (Node.number 4 ⟨0, 0⟩).Printable := .number (by decide)
  have hneg : Operator.neg.arity = 1 := rfl
  have hrem : Operator.rem.arity = 2 := rfl
  have hsigned : signedTree.Printable :=
    ((hfour.unary hneg ⟨0, 0⟩).unary hneg ⟨0, 0⟩).binary hrem (.name rfl) ⟨0, 0⟩
  have hread : ⟨none, some (.bytes [comparedTree]), none, ⟨0, 10⟩⟩ ∈
      (parse ".byte 1<-2").statements := List.mem_singleton.mpr rfl
  exact ⟨⟨hsigned, parsing_inverts_printing.1 _ hsigned⟩, hread,
    parsing_inverts_printing.2 _ _ _ hread List.mem_cons_self rfl⟩

end Chip8.Asm
