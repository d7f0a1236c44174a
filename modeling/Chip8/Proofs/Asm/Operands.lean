import Chip8.Proofs.Asm.Errors
import Chip8.Proofs.Asm.Forms

/-! # Operands

Which operands an instruction of a source has.

* Every register token names one of the sixteen registers (`Token.Exists`).
* What is read as an expression is one, and not a register or keyword
  (`isExpression_of_readFrom`).
* `selected_of_readInstruction`: the form of an instruction is one of the table of forms, its
  operands are as the form demands, and its registers exist (`Selected`).
* **Bodies.** What instructions and directives have read if they give a result, one lemma for each
  reading function (`readInstruction_eq_ok` and so on, up to `readBody_cases`). -/

namespace Chip8.Asm

/-- If the token is a register, there is such a register. -/
def Token.Exists (t : Token) : Prop := ∀ r, t.kind = .register r → r.toNat < 16

/-- Aliases stand for registers that exist. -/
def Aliases.Exist (aliases : Aliases) : Prop := ∀ i r, aliases.get? i = some r → r.toNat < 16

/-- The operands of an instruction are those that its form demands. -/
structure Selected (form : Form) (operands : List Node) : Prop where
  form_mem : form ∈ forms
  accepts : form.accepts operands = true
  register_lt : ∀ r span, Node.register r span ∈ operands → r.toNat < 16

/-! ### Tokens -/

theorem Numeral.digit?_lt {b d : Nat} {c : Char} (h : Numeral.digit? b c = some d) : d < b := by
  unfold Numeral.digit? at h
  simp only [Option.ite_none_right_eq_some, Option.some.injEq] at h
  omega

namespace Lexeme

variable (c : Char) (cs : List Char)

/-- No token that starts like an operator is a register. -/
theorem kind_pair (second : Char) (double single : TokenKind) :
    (pair second double single c cs).kind = double ∨
      (pair second double single c cs).kind = single := by
  unfold pair
  split
  · split
    · exact .inl rfl
    · exact .inr rfl
  · exact .inr rfl

theorem kind_angle (relation orEqual shift : Operator) :
    ∃ op, (angle relation orEqual shift c cs).kind = .operator op := by
  unfold angle
  split
  · split
    · exact ⟨shift, rfl⟩
    · split
      · exact ⟨orEqual, rfl⟩
      · exact ⟨relation, rfl⟩
  · exact ⟨relation, rfl⟩

theorem kind_percent : (percent c cs).kind = .number .binary ∨
    (percent c cs).kind = .operator .rem := by
  unfold percent
  dsimp only
  split
  · exact .inl rfl
  · exact .inr rfl

theorem kind_dot : (dot c cs).kind = .directive ∨ (dot c cs).kind = .unknown := by
  unfold dot
  dsimp only
  split
  · exact .inl rfl
  · exact .inr rfl

theorem kind_zero : ∃ base, (zero c cs).kind = .number base := by
  unfold zero
  split
  · split
    · exact ⟨.hexadecimal, rfl⟩
    · exact ⟨.decimal, rfl⟩
  · exact ⟨.decimal, rfl⟩

theorem kind_registerOrName : (registerOrName c cs).kind = .name ∨
    ∃ n, n < 16 ∧ (registerOrName c cs).kind = .register n.toUInt8 := by
  unfold registerOrName
  split
  · split
    · rename_i n hn
      split
      · exact .inl rfl
      · exact .inr ⟨n, Numeral.digit?_lt hn, rfl⟩
    · exact .inl rfl
  · exact .inl rfl

/-- A register token names one of the sixteen registers. -/
theorem register_lt {r : UInt8} (h : (scan c cs).kind = .register r) : r.toNat < 16 := by
  have hname : (registerOrName c cs).kind = .register r → r.toNat < 16 := by
    intro h
    rcases kind_registerOrName c cs with e | ⟨n, hn, e⟩
    · rw [e] at h
      cases h
    · rw [e] at h
      cases h
      rw [Nat.toUInt8_eq, UInt8.toNat_ofNat']
      omega
  unfold scan at h
  split at h
  case h_9 | h_10 | h_11 | h_12 =>
    rcases kind_pair _ cs _ _ _ with e | e <;> rw [e] at h <;> cases h
  case h_13 | h_14 =>
    obtain ⟨op, e⟩ := kind_angle _ cs _ _ _
    rw [e] at h
    cases h
  case h_21 => rcases kind_percent _ cs with e | e <;> rw [e] at h <;> cases h
  case h_22 => rcases kind_dot _ cs with e | e <;> rw [e] at h <;> cases h
  case h_23 =>
    obtain ⟨base, e⟩ := kind_zero _ cs
    rw [e] at h
    cases h
  case h_24 | h_25 => exact hname h
  case h_26 =>
    split at h
    · cases h
    · split at h
      · cases h
      · cases h
  all_goals cases h

/-- Only a newline and the mark of a comment end code. -/
theorem char_of_endsCode_scan (h : (scan c cs).kind.endsCode = true) :
    c = '\n' ∨ c = ';' ∧ (scan c cs).kind = .commentStart := by
  unfold scan at h ⊢
  split at h
  case h_1 => exact Or.inl rfl
  case h_2 => exact Or.inr ⟨rfl, rfl⟩
  case h_9 | h_10 | h_11 | h_12 =>
    rcases kind_pair _ cs _ _ _ with e | e <;> rw [e] at h <;> cases h
  case h_13 | h_14 =>
    obtain ⟨op, e⟩ := kind_angle _ cs _ _ _
    rw [e] at h
    cases h
  case h_21 => rcases kind_percent _ cs with e | e <;> rw [e] at h <;> cases h
  case h_22 => rcases kind_dot _ cs with e | e <;> rw [e] at h <;> cases h
  case h_23 =>
    obtain ⟨base, e⟩ := kind_zero _ cs
    rw [e] at h
    cases h
  case h_24 | h_25 =>
    rcases kind_registerOrName _ cs with e | ⟨n, -, e⟩ <;> rw [e] at h <;> cases h
  case h_26 =>
    split at h
    · cases h
    · split at h
      · cases h
      · cases h
  all_goals cases h

end Lexeme

/-- A token of a text is scanned at one of its characters. -/
theorem scan_of_mem_tokensFrom {skip offset : Nat} {cs : List Char} {t : Token}
    (ht : t ∈ tokensFrom skip offset cs) :
    ∃ c ∈ cs, ∃ ds, t.kind = (Lexeme.scan c ds).kind ∧ t.chars = (Lexeme.scan c ds).chars := by
  induction cs generalizing skip offset with
  | nil => cases ht
  | cons c cs ih =>
      have hlater : ∀ {skip' offset'}, t ∈ tokensFrom skip' offset' cs → ∃ d ∈ c :: cs, ∃ ds,
          t.kind = (Lexeme.scan d ds).kind ∧ t.chars = (Lexeme.scan d ds).chars := by
        intro skip' offset' h
        obtain ⟨d, hd, ds, h⟩ := ih h
        exact ⟨d, List.mem_cons_of_mem c hd, ds, h⟩
      rw [tokensFrom.eq_def] at ht
      dsimp only at ht
      split at ht
      · exact hlater ht
      · split at ht
        · exact hlater ht
        · rcases List.mem_cons.mp ht with rfl | ht
          · exact ⟨c, List.mem_cons_self, cs, rfl, rfl⟩
          · exact hlater ht

theorem exists_of_mem_tokensFrom {skip offset : Nat} {cs : List Char} {t : Token}
    (ht : t ∈ tokensFrom skip offset cs) : t.Exists := by
  obtain ⟨c, -, ds, hkind, -⟩ := scan_of_mem_tokensFrom ht
  intro r h
  rw [hkind] at h
  exact Lexeme.register_lt c ds h

theorem Line.exists_stop (l : Line) : l.stop.Exists := by
  intro r h
  unfold Line.stop Line.terminator at h
  split at h
  · cases h
  · split at h
    · cases h
    · cases h

/-- A line is code up to a comment or its end. -/
theorem Line.endsCode_stop (l : Line) : l.stop.kind.endsCode = true := by
  unfold stop terminator
  split
  · rfl
  · split <;> rfl

/-! ### Steps of reading -/

section Steps

variable {aliases : Aliases} {t : Token} {frames frames' : List Frame} {n n' : Node}

theorem readFrom_opens {frame : Frame} (h : operandStart aliases t = .ok (.inl frame))
    (stop : Token) (frames : List Frame) (ts : List Token) :
    readFrom aliases stop frames none (t :: ts) =
      readFrom aliases stop (frame :: frames) none ts := by
  rw [readFrom]
  dsimp only
  rw [h]

theorem readFrom_starts (h : operandStart aliases t = .ok (.inr n)) (stop : Token)
    (frames : List Frame) (ts : List Token) :
    readFrom aliases stop frames none (t :: ts) =
      readFrom aliases stop (Frame.settle frames n).1 (some (Frame.settle frames n).2) ts := by
  rw [readFrom]
  dsimp only
  rw [h]

theorem readFrom_refused {d : Diagnostic} (h : operandStart aliases t = .error d) (stop : Token)
    (frames : List Frame) (ts : List Token) :
    readFrom aliases stop frames none (t :: ts) = .error d := by
  rw [readFrom]
  dsimp only
  rw [h]

theorem readFrom_operand (h : continueWith frames n t = .operand frames') (stop : Token)
    (ts : List Token) :
    readFrom aliases stop frames (some n) (t :: ts) = readFrom aliases stop frames' none ts := by
  rw [readFrom, h]

theorem readFrom_operator (h : continueWith frames n t = .operator frames' n') (stop : Token)
    (ts : List Token) :
    readFrom aliases stop frames (some n) (t :: ts) =
      readFrom aliases stop frames' (some n') ts := by
  rw [readFrom, h]

end Steps

/-! ### Operands -/

theorem isExpression_settle {n : Node} (hn : n.isExpression = true) (frames : List Frame) :
    (Frame.settle frames n).2.isExpression = true := by
  induction frames generalizing n with
  | nil => exact hn
  | cons frame frames ih =>
      cases frame with
      | prefixed op s =>
          rw [Frame.settle]
          exact ih rfl
      | paren s => exact hn
      | binary op left => exact hn

theorem isExpression_close {n : Node} (hn : n.isExpression = true) (strength : Nat)
    (frames : List Frame) : (Frame.close strength frames n).2.isExpression = true := by
  induction frames generalizing n with
  | nil => exact hn
  | cons frame frames ih =>
      cases frame with
      | prefixed op s => exact hn
      | paren s => exact hn
      | binary op left =>
          rw [Frame.close]
          split
          · exact ih rfl
          · exact hn

theorem isExpression_withSpan (n : Node) (place : Span) :
    (n.withSpan place).isExpression = n.isExpression := by
  cases n <;> rfl

/-- The operand that reading goes on with is an expression. -/
def Continuation.Proper : Continuation → Prop
  | .operator _ n | .done n => n.isExpression = true
  | .operand _ | .unclosed => True

theorem proper_finish {n : Node} (hn : n.isExpression = true) (frames : List Frame) :
    (finish frames n).Proper := by
  have hclose := isExpression_close hn 0 frames
  unfold finish
  split
  · rename_i m hm
    rw [hm] at hclose
    exact hclose
  · trivial

theorem proper_continueWith {n : Node} (hn : n.isExpression = true) (frames : List Frame)
    (t : Token) : (continueWith frames n t).Proper := by
  have hclose := isExpression_close hn 0 frames
  unfold continueWith
  split
  · split
    · trivial
    · exact proper_finish hn frames
  · split
    · rename_i s frames' m hm
      rw [hm] at hclose
      refine isExpression_settle ?_ frames'
      rw [isExpression_withSpan]
      exact hclose
    · rename_i m _ hm
      rw [hm] at hclose
      exact hclose
  · exact proper_finish hn frames

theorem isExpression_of_operandStart {aliases : Aliases} {t : Token} {n : Node}
    (h : operandStart aliases t = .ok (.inr n)) : n.isExpression = true := by
  unfold operandStart at h
  split at h
  · obtain ⟨v, _, hv⟩ := map_eq_ok h
    cases hv
    rfl
  · obtain ⟨m, hm, hn⟩ := map_eq_ok h
    cases hn
    unfold nameOf at hm
    split at hm
    · cases hm
    · split at hm
      · cases hm
      · cases hm
        rfl
  · cases h
  · cases h
  · split at h <;> cases h
  · cases h

/-- What is read as an expression is one, not a register or keyword. -/
theorem isExpression_of_readFrom {aliases : Aliases} {stop : Token} {frames : List Frame}
    {operand : Option Node} {ts rest : List Token} {n : Node}
    (hoperand : ∀ m, operand = some m → m.isExpression = true)
    (h : readFrom aliases stop frames operand ts = .ok (n, rest)) : n.isExpression = true := by
  induction ts generalizing frames operand with
  | nil =>
      unfold readFrom at h
      split at h
      · cases h
      · rename_i m
        have hproper := proper_finish (hoperand m rfl) frames
        split at h
        · rename_i k hk
          rw [hk] at hproper
          cases h
          exact hproper
        · cases h
  | cons t ts ih =>
      unfold readFrom at h
      split at h
      · split at h
        · cases h
        · exact ih (fun m hm => by cases hm) h
        · rename_i m hm
          refine ih (fun k hk => ?_) h
          cases hk
          exact isExpression_settle (isExpression_of_operandStart hm) frames
      · rename_i m
        have hproper := proper_continueWith (hoperand m rfl) frames t
        split at h
        · exact ih (fun m hm => by cases hm) h
        · rename_i k hk
          rw [hk] at hproper
          refine ih (fun j hj => ?_) h
          cases hj
          exact hproper
        · rename_i k hk
          rw [hk] at hproper
          cases h
          exact hproper
        · cases h

theorem register_lt_of_readOperand {aliases : Aliases} (haliases : aliases.Exist) {p : Piece}
    (hp : ∀ t ∈ p.tokens, t.Exists) {n : Node} {rest : List Token}
    (h : readOperand aliases p = .ok (n, rest)) {r : UInt8} {span : Span}
    (hn : n = .register r span) : r.toNat < 16 := by
  rcases readOperand_cases aliases p with
    hread | ⟨t, ts, htokens, ⟨k, hk, hread⟩ | ⟨-, hread⟩ | ⟨-, -, hread⟩⟩
  all_goals rw [hread] at h
  · have hexpression : n.isExpression = true :=
      isExpression_of_readFrom (fun m hm => by cases hm) h
    rw [hn] at hexpression
    cases hexpression
  · cases h
    cases hn
    exact hp t (htokens ▸ List.mem_cons_self) r hk
  · unfold bracketOperand at h
    dsimp only at h
    split at h
    · split at h
      · cases h
        cases hn
      · cases h
    · cases h
  · obtain ⟨m, hm, hrest⟩ := map_eq_ok h
    cases hrest
    unfold wordOperand at hm
    split at hm
    · cases hm
      cases hn
    · split at hm
      · cases hm
      · split at hm
        · rename_i hget
          cases hm
          cases hn
          exact haliases _ r hget
        · cases hm
          cases hn

theorem mem_of_readPieces {read : Piece → Except Diagnostic (Node × List Token)}
    {ps : List Piece} {ns : List Node} {rest : Option Token}
    (h : readPieces read ps = .ok (ns, rest)) {n : Node} (hn : n ∈ ns) :
    ∃ p ∈ ps, ∃ ts, read p = .ok (n, ts) := by
  induction ps generalizing ns rest with
  | nil =>
      cases h
      cases hn
  | cons p ps ih =>
      unfold readPieces at h
      split at h
      · cases h
      · rename_i m t ts hm
        cases h
        rw [List.mem_singleton] at hn
        exact ⟨p, List.mem_cons_self, _, hn ▸ hm⟩
      · rename_i m hm
        split at h
        · cases h
        · rename_i ms rest' hms
          cases h
          rcases List.mem_cons.mp hn with rfl | hn
          · exact ⟨p, List.mem_cons_self, _, hm⟩
          · obtain ⟨q, hq, ts, hread⟩ := ih hms hn
            exact ⟨q, List.mem_cons_of_mem p hq, ts, hread⟩

theorem register_lt_of_readOperands {aliases : Aliases} (haliases : aliases.Exist)
    {stop : Token} {ts : List Token} (hts : ∀ t ∈ ts, t.Exists) {ns : List Node}
    {rest : Option Token} (h : readOperands aliases stop ts = .ok (ns, rest)) {r : UInt8}
    {span : Span} (hn : Node.register r span ∈ ns) : r.toNat < 16 := by
  unfold readOperands at h
  split at h
  · cases h
    cases hn
  · obtain ⟨p, hp, rest', hread⟩ := mem_of_readPieces h hn
    exact register_lt_of_readOperand haliases (fun t ht => hts t (mem_of_mem_pieces hp ht)) hread
      rfl

/-! ### Instructions -/

theorem selectForm_eq_ok {mnemonic : Token} {operands : List Node} {form : Form} :
    selectForm mnemonic operands = .ok form ↔ matching mnemonic.chars operands = [form] := by
  constructor
  · intro h
    unfold selectForm at h
    dsimp only at h
    split at h
    · rename_i f hf
      cases h
      exact hf
    · cases h
    · cases h
  · intro h
    rw [selectForm, h]

theorem readInstruction_eq_ok {aliases : Aliases} {stop mnemonic : Token} {ts : List Token}
    {b : Body} {rest : Option Token} :
    readInstruction aliases stop mnemonic ts = .ok (b, rest) ↔
      ∃ form operands, b = .instruction form operands ∧ isMnemonic mnemonic.chars = true ∧
        readOperands aliases stop ts = .ok (operands, rest) ∧
        matching mnemonic.chars operands = [form] := by
  constructor
  · intro h
    unfold readInstruction at h
    split at h
    · rename_i hmnemonic
      obtain ⟨⟨operands, rest'⟩, hread, h⟩ := bind_eq_ok h
      obtain ⟨form, hform, h⟩ := bind_eq_ok h
      cases h
      exact ⟨form, operands, rfl, hmnemonic, hread, selectForm_eq_ok.mp hform⟩
    · cases h
  · rintro ⟨form, operands, rfl, hmnemonic, hread, hform⟩
    simp only [readInstruction, hmnemonic, if_true, hread, selectForm_eq_ok.mpr hform, bind,
      Except.bind, pure, Except.pure]

/-- An instruction that is read is one of the forms and its operands. -/
theorem selected_of_readInstruction {aliases : Aliases} (haliases : aliases.Exist)
    {stop mnemonic : Token} {ts : List Token} (hts : ∀ t ∈ ts, t.Exists) {b : Body}
    {rest : Option Token} (h : readInstruction aliases stop mnemonic ts = .ok (b, rest)) :
    ∃ form operands, b = .instruction form operands ∧ Selected form operands := by
  obtain ⟨form, operands, rfl, -, hread, hform⟩ := readInstruction_eq_ok.mp h
  have hmem : form ∈ matching mnemonic.chars operands := by
    rw [hform]
    exact List.mem_singleton_self form
  obtain ⟨htable, _, haccepts⟩ := mem_matching.mp hmem
  exact ⟨form, operands, rfl, htable, haccepts, fun r span hr =>
    register_lt_of_readOperands haliases hts hread hr⟩

/-! ### Directives and bodies -/

section Bodies

variable {scope scope' : Scope} {stop : Token} {ts : List Token} {rest : Option Token}

theorem readConstant_eq_ok {b : Body} : readConstant scope stop ts = .ok (scope', b, rest) ↔
    ∃ t ts₁ i comma ts₂ n, b = .constant ⟨i, t.span⟩ n ∧
      expect .name "a constant name" stop ts = .ok (t, ts₁) ∧ identifierOf t = .ok i ∧
      expect .comma "`,`" stop ts₁ = .ok (comma, ts₂) ∧
      readSingle (readTree scope.aliases) stop ts₂ = .ok (n, rest) ∧
      scope.declare .constant ⟨i, t.span⟩ = .ok scope' := by
  constructor
  · intro h
    unfold readConstant at h
    obtain ⟨⟨t, ts₁⟩, ht, h⟩ := bind_eq_ok h
    obtain ⟨i, hi, h⟩ := bind_eq_ok h
    obtain ⟨⟨comma, ts₂⟩, hcomma, h⟩ := bind_eq_ok h
    obtain ⟨⟨n, rest'⟩, hn, h⟩ := bind_eq_ok h
    obtain ⟨s, hs, h⟩ := bind_eq_ok h
    cases h
    exact ⟨t, ts₁, i, comma, ts₂, n, rfl, ht, hi, hcomma, hn, hs⟩
  · rintro ⟨t, ts₁, i, comma, ts₂, n, rfl, ht, hi, hcomma, hn, hs⟩
    simp only [readConstant, ht, hi, hcomma, hn, hs, bind, Except.bind, pure, Except.pure]

theorem readAlias_eq_ok (h : readAlias scope stop ts = .ok (scope', rest)) :
    ∃ t ts₁ i comma ts₂ r, scope' = { scope with aliases := (i, r) :: scope.aliases } ∧
      expect .name "an alias name" stop ts = .ok (t, ts₁) ∧ identifierOf t = .ok i ∧
      Keyword.ofWord? t.chars = none ∧ expect .comma "`,`" stop ts₁ = .ok (comma, ts₂) ∧
      (ts₂.head?.getD stop).kind = .register r ∧ scope.aliases.get? i = none := by
  unfold readAlias at h
  obtain ⟨⟨t, ts₁⟩, ht, h⟩ := bind_eq_ok h
  obtain ⟨i, hi, h⟩ := bind_eq_ok h
  dsimp only at h
  split at h
  · cases h
  · rename_i hword
    obtain ⟨⟨comma, ts₂⟩, hcomma, h⟩ := bind_eq_ok h
    dsimp only at h
    split at h
    · rename_i r hr
      split at h
      · cases h
      · rename_i hget
        cases h
        exact ⟨t, ts₁, i, comma, ts₂, r, rfl, ht, hi, by simpa using hword, hcomma, hr,
          by simpa using hget⟩
    · cases h

/-- What a directive has read, by its kind. -/
inductive DirectiveReads (scope : Scope) (stop name : Token) (ts : List Token)
    (rest : Option Token) : Scope → Option Body → Prop
  | constant {scope' : Scope} {b : Body} (directive : Directive.ofToken? name = some .constant)
      (reads : readConstant scope stop ts = .ok (scope', b, rest)) :
      DirectiveReads scope stop name ts rest scope' (some b)
  | registerAlias {scope' : Scope} (directive : Directive.ofToken? name = some .registerAlias)
      (reads : readAlias scope stop ts = .ok (scope', rest)) :
      DirectiveReads scope stop name ts rest scope' none
  | only {make : Node → Body} {n : Node}
      (directive : Directive.ofToken? name = some .origin ∧ make = .origin ∨
        Directive.ofToken? name = some .reserve ∧ make = .reserve)
      (reads : readSingle (readValue scope.aliases) stop ts = .ok (n, rest)) :
      DirectiveReads scope stop name ts rest scope (some (make n))
  | all {make : List Node → Body} {ns : List Node}
      (directive : Directive.ofToken? name = some .bytes ∧ make = .bytes ∨
        Directive.ofToken? name = some .words ∧ make = .words)
      (reads : readPieces (readValue scope.aliases) (pieces stop ts) = .ok (ns, rest)) :
      DirectiveReads scope stop name ts rest scope (some (make ns))

theorem directiveReads_of_readDirective {name : Token} {b : Option Body}
    (h : readDirective scope stop name ts = .ok (scope', b, rest)) :
    DirectiveReads scope stop name ts rest scope' b := by
  have honly : ∀ {make : Node → Body},
      (readOnly scope.aliases stop make ts).map (fun r => (scope, r)) = .ok (scope', b, rest) →
        ∃ n, scope' = scope ∧ b = some (make n) ∧
          readSingle (readValue scope.aliases) stop ts = .ok (n, rest) := by
    intro make h
    obtain ⟨⟨c, rest'⟩, hread, heq⟩ := map_eq_ok h
    cases heq
    obtain ⟨⟨n, rest'⟩, hn, heq⟩ := bind_eq_ok hread
    cases heq
    exact ⟨n, rfl, rfl, hn⟩
  have hall : ∀ {make : List Node → Body},
      (readAll scope.aliases stop make ts).map (fun r => (scope, r)) = .ok (scope', b, rest) →
        ∃ ns, scope' = scope ∧ b = some (make ns) ∧
          readPieces (readValue scope.aliases) (pieces stop ts) = .ok (ns, rest) := by
    intro make h
    obtain ⟨⟨c, rest'⟩, hread, heq⟩ := map_eq_ok h
    cases heq
    obtain ⟨⟨ns, rest'⟩, hns, heq⟩ := bind_eq_ok hread
    cases heq
    exact ⟨ns, rfl, rfl, hns⟩
  unfold readDirective at h
  split at h
  · rename_i hname
    obtain ⟨⟨s, c, rest'⟩, hread, heq⟩ := map_eq_ok h
    cases heq
    exact .constant hname hread
  · rename_i hname
    obtain ⟨⟨s, rest'⟩, hread, heq⟩ := map_eq_ok h
    cases heq
    exact .registerAlias hname hread
  · rename_i hname
    obtain ⟨n, rfl, rfl, hn⟩ := honly h
    exact .only (Or.inl ⟨hname, rfl⟩) hn
  · rename_i hname
    obtain ⟨ns, rfl, rfl, hns⟩ := hall h
    exact .all (Or.inl ⟨hname, rfl⟩) hns
  · rename_i hname
    obtain ⟨ns, rfl, rfl, hns⟩ := hall h
    exact .all (Or.inr ⟨hname, rfl⟩) hns
  · rename_i hname
    obtain ⟨n, rfl, rfl, hn⟩ := honly h
    exact .only (Or.inr ⟨hname, rfl⟩) hn
  · cases h

theorem readDirective_eq_ok {name : Token} {b : Option Body} :
    readDirective scope stop name ts = .ok (scope', b, rest) ↔
      DirectiveReads scope stop name ts rest scope' b := by
  refine ⟨directiveReads_of_readDirective, fun h => ?_⟩
  unfold readDirective
  cases h with
  | constant hname hread => simp only [hname, hread, Except.map]
  | registerAlias hname hread => simp only [hname, hread, Except.map]
  | only hname hn =>
      rcases hname with ⟨hname, rfl⟩ | ⟨hname, rfl⟩
      all_goals simp only [hname, readOnly, hn, bind, Except.bind, pure, Except.pure, Except.map]
  | all hname hns =>
      rcases hname with ⟨hname, rfl⟩ | ⟨hname, rfl⟩
      all_goals simp only [hname, readAll, hns, bind, Except.bind, pure, Except.pure, Except.map]

theorem readBody_cases {b : Option Body} (h : readBody scope stop ts = .ok (scope', b, rest)) :
    (scope' = scope ∧ b = none ∧ rest = ts.head?) ∨
      ∃ t us, ts = t :: us ∧
        ((t.kind = .name ∧ scope' = scope ∧
            ∃ c, b = some c ∧ readInstruction scope.aliases stop t us = .ok (c, rest)) ∨
          (t.kind = .directive ∧ readDirective scope stop t us = .ok (scope', b, rest))) := by
  unfold readBody at h
  split at h
  · cases h
    exact Or.inl ⟨rfl, rfl, rfl⟩
  · rename_i t us
    split at h
    · rename_i hkind
      obtain ⟨⟨c, rest'⟩, hread, heq⟩ := map_eq_ok h
      cases heq
      exact Or.inr ⟨t, us, rfl, Or.inl ⟨hkind, rfl, c, rfl, hread⟩⟩
    · rename_i hkind
      exact Or.inr ⟨t, us, rfl, Or.inr ⟨hkind, h⟩⟩
    · cases h
      exact Or.inl ⟨rfl, rfl, rfl⟩

end Bodies

end Chip8.Asm
