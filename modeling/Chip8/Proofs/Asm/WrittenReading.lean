import Chip8.Proofs.Asm.NameSpaces
import Chip8.Proofs.Asm.Respelling
import Chip8.Proofs.Asm.WrittenOut

/-! # Reading what is written out

Operands in which names are written out are read as the trees in which they are.

* `Node.spellings` are the texts that may stand for a token of an operand: the value in parentheses
  for a name in an expression, the register for an alias that is the operand as a whole.
* **Expressions.** A number in parentheses is an operand like the name, whatever is open in front of
  it (`writtenOut_readFrom`).
* **Operands.** One lemma for each reading function, on the tokens that are written for those of the
  first text (`Spelt`): what is read up to the end there is read up to the end here. -/

namespace Chip8.Asm

variable {F : SymbolTable} {spell : Token → List Char}

/-! ### Spellings -/

/-- The ways to write a register. -/
def registerTexts (r : UInt8) : List (List Char) :=
  ['v', 'V'].flatMap fun c =>
    ("0123456789abcdefABCDEF".toList.filter (Numeral.digit? 16 · = some r.toNat)).map fun d => [c, d]

/-- The ways to write the value of a name, unless it is negative. -/
def valueTexts (F : SymbolTable) (w : List Char) : List (List Char) :=
  match (Identifier.ofChars? w).map F.lookup with
  | some (.value v) => if 0 ≤ v.toInt then [enclosedDigits v.toInt.natAbs] else []
  | _ => []

/-- What may be written for a token of the operand `n`, beside its own characters. -/
def Node.spellings (F : SymbolTable) (n : Node) (t : Token) : List (List Char) :=
  match t.kind, n with
  | .name, .register r _ => registerTexts r
  | .name, .keyword .. => []
  | .name, _ => valueTexts F t.chars
  | _, _ => []

theorem mem_registerTexts {r : UInt8} {w : List Char} (h : w ∈ registerTexts r) :
    ∃ c d, w = [c, d] ∧ (c = 'v' ∨ c = 'V') ∧ Numeral.digit? 16 d = some r.toNat := by
  obtain ⟨c, hc, h⟩ := List.mem_flatMap.mp h
  obtain ⟨d, hd, rfl⟩ := List.mem_map.mp h
  rw [List.mem_cons, List.mem_singleton] at hc
  exact ⟨c, d, rfl, hc, of_decide_eq_true (List.mem_filter.mp hd).2⟩

theorem mem_valueTexts {w w' : List Char} (h : w' ∈ valueTexts F w) :
    ∃ i v, Identifier.ofChars? w = some i ∧ F.lookup i = .value v ∧ 0 ≤ v.toInt ∧
      w' = enclosedDigits v.toInt.natAbs := by
  unfold valueTexts at h
  split at h
  · rename_i v hv
    obtain ⟨i, hi, hvalue⟩ := Option.map_eq_some_iff.mp hv
    split at h
    · rename_i hnonneg
      exact ⟨i, v, hi, hvalue, hnonneg, List.mem_singleton.mp h⟩
    · cases h
  · cases h

/-- A name may be written as the register that the operand is, or as its value in an expression. -/
theorem Node.mem_spellings {n : Node} {t : Token} {w : List Char} (h : w ∈ n.spellings F t) :
    t.kind = .name ∧ ((∃ r s, n = .register r s ∧ w ∈ registerTexts r) ∨
      n.isExpression = true ∧ w ∈ valueTexts F t.chars) := by
  unfold Node.spellings at h
  cases hkind : t.kind with
  | name =>
      rw [hkind] at h
      cases n with
      | register r s => exact ⟨rfl, Or.inl ⟨r, s, rfl, h⟩⟩
      | keyword k s => cases h
      | _ => exact ⟨rfl, Or.inr ⟨rfl, h⟩⟩
  | _ =>
      rw [hkind] at h
      cases h

theorem Node.spelled_of_mem_spellings {n : Node} {t : Token} {w : List Char}
    (h : w ∈ n.spellings F t) : t.Spelled w := by
  obtain ⟨hname, ⟨r, -, -, hw⟩ | ⟨-, hw⟩⟩ := mem_spellings h
  · obtain ⟨c, d, rfl, hc, hd⟩ := mem_registerTexts hw
    exact .register hname hc hd
  · obtain ⟨i, v, -, -, -, rfl⟩ := mem_valueTexts hw
    exact .number _ hname

/-! ### Trees -/

variable (F) in
theorem Node.WrittenOut.congruence : Congruence (fun _ _ => True) (Node.WrittenOut F) where
  join _ _ := trivial
  span _ := trivial
  withSpan h _ := by
    cases h with
    | number => exact .number
    | register => exact .register
    | keyword => exact .keyword
    | name => exact .name
    | value h => exact .value h
    | apply h => exact .apply h
  apply h _ := .apply h

mutual

/-- Trees that differ in places only have no name written out. -/
theorem Node.Like.writtenOut : ∀ (n : Node) {n' : Node}, n.Like .layout n' → n.WrittenOut F n'
  | .number .., _, h => by
      cases h
      exact .number
  | .register .., _, h => by
      cases h
      exact .register
  | .keyword .., _, h => by
      cases h
      exact .keyword
  | .name .., _, h => by
      cases h with
      | name hname =>
          cases hname
          exact .name
  | .apply _ ns _, _, h => by
      cases h with
      | apply hns => exact .apply (Node.Like.allWrittenOut ns hns)

theorem Node.Like.allWrittenOut : ∀ (ns : List Node) {ns' : List Node},
    List.Forall₂ (Node.Like .layout) ns ns' → List.Forall₂ (Node.WrittenOut F) ns ns'
  | [], _, h => by
      cases h
      exact .nil
  | n :: ns, _, h => by
      cases h with
      | cons hn hns => exact .cons (Node.Like.writtenOut n hn) (Node.Like.allWrittenOut ns hns)

end

/-- No form tells a name from its value. -/
theorem Node.WrittenOut.fits {n n' : Node} (h : n.WrittenOut F n') : n.Fits n' := by
  intro shape
  cases h <;> cases shape <;> rfl

/-! ### Expressions -/

/-- The tokens of an expression with some names written out. -/
inductive TokensWritten (F : SymbolTable) : List Token → List Token → Prop
  | nil : TokensWritten F [] []
  | kept {t t' : Token} {ts us : List Token} (face : t.face = t'.face)
      (rest : TokensWritten F ts us) : TokensWritten F (t :: ts) (t' :: us)
  | value {t opening number closing : Token} {ts us : List Token} {i : Identifier} {v : Int64}
      (name : t.kind = .name) (chars : Identifier.ofChars? t.chars = some i)
      (value : F.lookup i = .value v) (nonneg : 0 ≤ v.toInt)
      (opens : opening.kind = .parenOpen)
      (digits : number.face = (.number .decimal, Numeral.digits 10 v.toInt.natAbs))
      (closes : closing.kind = .parenClose) (rest : TokensWritten F ts us) :
      TokensWritten F (t :: ts) (opening :: number :: closing :: us)

theorem Frame.Like.imp {place : Span → Span → Prop} {R S : Node → Node → Prop}
    (hRS : ∀ n n', R n n' → S n n') {f f' : Frame} (h : f.Like place R f') : f.Like place S f' := by
  cases h with
  | prefixed h => exact .prefixed h
  | paren h => exact .paren h
  | binary h => exact .binary (hRS _ _ h)

section Expressions

variable {aliases aliases' : Aliases} {stop : Token} {frames frames' : List Frame} {n n' : Node}

/-- A name at the start of an operand is the operand. -/
theorem operandStart_name {t : Token} {i : Identifier} (hkind : t.kind = .name)
    (hi : Identifier.ofChars? t.chars = some i) {x : Frame ⊕ Node}
    (h : operandStart aliases t = .ok x) : x = .inr (.name i t.span) := by
  unfold operandStart at h
  rw [hkind] at h
  obtain ⟨m, hm, rfl⟩ := map_eq_ok h
  unfold nameOf identifierOf at hm
  rw [hi] at hm
  dsimp only at hm
  split at hm
  · cases hm
  · cases hm
    rfl

/-- A number in parentheses is an operand, whatever is open in front of it. -/
theorem readFrom_enclosed {opening number closing : Token} {v : Int64} (hv : 0 ≤ v.toInt)
    (hopens : opening.kind = .parenOpen)
    (hdigits : number.face = (.number .decimal, Numeral.digits 10 v.toInt.natAbs))
    (hcloses : closing.kind = .parenClose) (stop : Token) (us : List Token) :
    readFrom aliases stop frames none (opening :: number :: closing :: us) =
      readFrom aliases stop
        (Frame.settle frames (.number v (opening.span.join closing.span))).1
        (some (Frame.settle frames (.number v (opening.span.join closing.span))).2) us := by
  obtain ⟨hkind, hchars⟩ := Prod.mk.inj hdigits
  have hopen : operandStart aliases opening = .ok (.inl (.paren opening.span)) := by
    rw [operandStart, hopens]
  have hnumber : operandStart aliases number = .ok (.inr (.number v number.span)) := by
    rw [operandStart, hkind]
    dsimp only
    rw [numberOf_digits hv (hchars.trans (integerChars_of_nonneg hv).symm)]
    rfl
  have hclose : continueWith (.paren opening.span :: frames) (.number v number.span) closing =
      .operator (Frame.settle frames (.number v (opening.span.join closing.span))).1
        (Frame.settle frames (.number v (opening.span.join closing.span))).2 := by
    rw [continueWith, hcloses]
    rfl
  rw [readFrom_opens hopen, readFrom_starts hnumber]
  exact readFrom_operator hclose stop us

/-- Behind an operand a name ends the expression. -/
theorem not_readFrom_name {t : Token} (hkind : t.kind = .name) {m : Node} {ts : List Token} :
    readFrom aliases stop frames (some m) (t :: ts) ≠ .ok (n, []) := by
  have hgo : continueWith frames m t = finish frames m := by
    rw [continueWith, hkind]
  rw [readFrom, hgo, finish]
  cases Frame.close 0 frames m with
  | mk fs k => cases fs <;> simp

variable {stop' : Token} (haliases : aliases.Like .layout aliases')

include haliases

/-- The induction is on the tokens; what is open and the operand just read are arbitrary. -/
theorem writtenOut_readFrom {ts us : List Token} (hus : TokensWritten F ts us)
    (hframes : List.Forall₂ (Frame.Like (fun _ _ => True) (Node.WrittenOut F)) frames frames')
    {operand operand' : Option Node} (hoperand : Option.Rel (Node.WrittenOut F) operand operand')
    (h : readFrom aliases stop frames operand ts = .ok (n, [])) :
    ∃ n', readFrom aliases' stop' frames' operand' us = .ok (n', []) ∧ n.WrittenOut F n' := by
  have hcongruence := Node.WrittenOut.congruence F
  induction hus generalizing frames frames' operand operand' with
  | nil =>
      cases hoperand with
      | none => cases h
      | @some m m' hm =>
          have hfinish := like_finish hcongruence hframes hm
          unfold readFrom at h ⊢
          dsimp only at h ⊢
          generalize finish frames m = x at hfinish h
          generalize finish frames' m' = x' at hfinish ⊢
          cases hfinish with
          | done hk =>
              cases h
              exact ⟨_, rfl, hk⟩
          | _ => cases h
  | @kept t t' ts us hface _ ih =>
      have ht := like_of_face hface
      cases hoperand with
      | none =>
          have hstart := agree_operandStart haliases ht fun _ => Likeness.layout_knows t.chars
          unfold readFrom at h ⊢
          dsimp only at h ⊢
          generalize operandStart aliases t = x at hstart h
          generalize operandStart aliases' t' = x' at hstart ⊢
          cases hstart with
          | error _ => cases h
          | ok hx =>
              cases hx with
              | inl hframe =>
                  exact ih (.cons (hframe.imp fun k _ => Node.Like.writtenOut k) hframes) .none h
              | @inr k _ hk =>
                  have hsettle := Frame.like_settle hcongruence hframes (Node.Like.writtenOut k hk)
                  exact ih hsettle.fst (.some hsettle.snd) h
      | @some m m' hm =>
          have hgo := like_continueWith hcongruence hframes hm ht.kind trivial
          unfold readFrom at h ⊢
          dsimp only at h ⊢
          generalize continueWith frames m t = x at hgo h
          generalize continueWith frames' m' t' = x' at hgo ⊢
          cases hgo with
          | operand hfs => exact ih hfs .none h
          | operator hfs hk => exact ih hfs (.some hk) h
          | done _ => cases h
          | unclosed => cases h
  | @value t opening number closing ts us i v hname hchars hvalue hnonneg hopens hdigits hcloses _
      ih =>
      cases hoperand with
      | none =>
          rw [readFrom_enclosed hnonneg hopens hdigits hcloses]
          cases hstart : operandStart aliases t with
          | error d =>
              rw [readFrom_refused hstart] at h
              cases h
          | ok x =>
              obtain rfl := operandStart_name hname hchars hstart
              rw [readFrom_starts hstart] at h
              have hsettle := Frame.like_settle hcongruence hframes
                (.value hvalue : Node.WrittenOut F (.name i t.span)
                  (.number v (opening.span.join closing.span)))
              exact ih hsettle.fst (.some hsettle.snd) h
      | some hm => exact absurd h (not_readFrom_name hname)

end Expressions

/-! ### Tokens -/

/-- How a token looks in the new text. -/
inductive Token.Shown (t : Token) : List Face → Prop
  | kept : Shown t [t.face]
  | number (name : t.kind = .name) (k : Nat) :
      Shown t [(.parenOpen, ['(']), (.number .decimal, Numeral.digits 10 k), (.parenClose, [')'])]
  | register (name : t.kind = .name) (r : UInt8) (w : List Char) : Shown t [(.register r, w)]

theorem shown_of_mem_spellings {n : Node} {t : Token} {w : List Char}
    (h : w ∈ n.spellings F t) : t.Shown (faces w) := by
  obtain ⟨hname, ⟨r, -, -, hw⟩ | ⟨-, hw⟩⟩ := Node.mem_spellings h
  · obtain ⟨c, d, rfl, hc, hd⟩ := mem_registerTexts hw
    rw [faces_registerChars hc hd delimited_nil]
    exact .register hname _ _
  · obtain ⟨i, v, -, -, -, rfl⟩ := mem_valueTexts hw
    rw [faces_enclosed]
    exact .number hname _

/-- The token is the same in the new text. -/
def Token.Kept (spell : Token → List Char) (t : Token) : Prop := faces (spell t) = [t.face]

theorem Token.Shown.kept_of_kind {t : Token} {fs : List Face} (h : t.Shown fs)
    (ht : t.kind ≠ .name) : fs = [t.face] := by
  cases h with
  | kept => rfl
  | number hname => exact absurd hname ht
  | register hname => exact absurd hname ht

/-- Nothing is written as a comma or colon but these. -/
theorem Token.Shown.kind_of_mem {t : Token} {fs : List Face} (h : t.Shown fs) {f : Face}
    (hf : f ∈ fs) (hkind : f.1 = .comma ∨ f.1 = .colon) : t.kind = f.1 := by
  cases h with
  | kept => rw [List.mem_singleton.mp hf, Token.face]
  | number _ k =>
      simp only [List.mem_cons, List.not_mem_nil, or_false] at hf
      rcases hf with rfl | rfl | rfl <;> rcases hkind with h | h <;> cases h
  | register _ r w =>
      rw [List.mem_singleton.mp hf] at hkind
      rcases hkind with h | h <;> cases h

/-- The tokens are those that are written for the tokens of the first text. -/
def Spelt (spell : Token → List Char) (ts us : List Token) : Prop :=
  us.map Token.face = ts.flatMap fun t => faces (spell t)

namespace Spelt

variable {t : Token} {ts us : List Token}

theorem cons (h : Spelt spell (t :: ts) us) :
    ∃ vs ws, us = vs ++ ws ∧ vs.map Token.face = faces (spell t) ∧ Spelt spell ts ws := by
  rw [Spelt, List.flatMap_cons] at h
  exact List.map_eq_append_iff.mp h

theorem kept (h : Spelt spell (t :: ts) us) (ht : t.Kept spell) :
    ∃ t' ws, us = t' :: ws ∧ t.face = t'.face ∧ Spelt spell ts ws := by
  obtain ⟨vs, ws, rfl, hvs, hws⟩ := h.cons
  obtain ⟨t', rfl, ht'⟩ := List.map_eq_singleton_iff.mp (hvs.trans ht)
  exact ⟨t', ws, rfl, ht'.symm, hws⟩

theorem append {vs : List Token} (hvs : vs.map Token.face = faces (spell t))
    (h : Spelt spell ts us) : Spelt spell (t :: ts) (vs ++ us) := by
  rw [Spelt, List.map_append, List.flatMap_cons, hvs, h]

theorem eq_nil (h : Spelt spell [] us) : us = [] := List.map_eq_nil_iff.mp h

theorem map_face_of_kept (h : Spelt spell ts us) (hts : ∀ t ∈ ts, t.Kept spell) :
    ts.map Token.face = us.map Token.face := by
  rw [h, ← List.flatMap_singleton' (ts.map Token.face), List.flatMap_map]
  exact List.flatMap_congr fun t ht => (hts t ht).symm

variable (hshown : ∀ t ∈ ts, t.Shown (faces (spell t)))

include hshown

theorem isEmpty (h : Spelt spell ts us) : us.isEmpty = ts.isEmpty := by
  cases ts with
  | nil => rw [h.eq_nil]
  | cons t ts =>
      obtain ⟨vs, ws, rfl, hvs, -⟩ := h.cons
      have ht := hshown t List.mem_cons_self
      rw [← hvs] at ht
      cases vs with
      | nil => cases ht
      | cons v vs => rfl

end Spelt

/-- The tokens of an expression are written as it permits. -/
theorem tokensWritten_of_spelt {n : Node} (hn : n.isExpression = true) {ts us : List Token}
    (hus : Spelt spell ts us) (hts : ∀ t ∈ ts, t.Kept spell ∨ spell t ∈ n.spellings F t) :
    TokensWritten F ts us := by
  induction ts generalizing us with
  | nil =>
      rw [hus.eq_nil]
      exact .nil
  | cons t ts ih =>
      rw [List.forall_mem_cons] at hts
      rcases hts.1 with hkept | hmem
      · obtain ⟨t', ws, rfl, hface, hws⟩ := hus.kept hkept
        exact .kept hface (ih hws hts.2)
      · obtain ⟨vs, ws, rfl, hvs, hws⟩ := hus.cons
        obtain ⟨hname, ⟨r, s, rfl, -⟩ | ⟨-, hvalue⟩⟩ := Node.mem_spellings hmem
        · cases hn
        · obtain ⟨i, v, hi, hv, hnonneg, hspell⟩ := mem_valueTexts hvalue
          rw [hspell, faces_enclosed] at hvs
          obtain ⟨opening, rest, rfl, hopens, -, hrest⟩ := exists_of_map_face hvs
          obtain ⟨number, last, rfl, hnumber, hlast⟩ := List.map_eq_cons_iff.mp hrest
          obtain ⟨closing, rfl, hcloses, -⟩ := exists_of_map_face_singleton hlast
          exact .value hname hi hv hnonneg hopens hnumber hcloses (ih hws hts.2)

/-! ### Operands -/

/-- The pieces have the tokens that are written for each other, and end alike. -/
structure Piece.Spelt (spell : Token → List Char) (p p' : Piece) : Prop where
  tokens : Asm.Spelt spell p.tokens p'.tokens
  stop : p.stop.StopsLike .layout p'.stop

/-- The tokens of the piece are written as the tree that is read from it permits. -/
def Piece.Permitted (F : SymbolTable) (spell : Token → List Char)
    (read : Piece → Except Diagnostic (Node × List Token)) (p : Piece) : Prop :=
  ∀ n, read p = .ok (n, []) → ∀ t ∈ p.tokens, t.Kept spell ∨ spell t ∈ n.spellings F t

/-- What is read from the whole of the first piece is read from the whole of the second one, with
names written out. -/
def ReadsWritten (F : SymbolTable) (read read' : Piece → Except Diagnostic (Node × List Token))
    (p p' : Piece) : Prop :=
  ∀ n, read p = .ok (n, []) → ∃ n', read' p' = .ok (n', []) ∧ n.WrittenOut F n'

section Operands

variable {aliases aliases' : Aliases} {p p' : Piece} {n : Node}

theorem isExpression_of_readTree {rest : List Token} (h : readTree aliases p = .ok (n, rest)) :
    n.isExpression = true :=
  isExpression_of_readFrom (fun m hm => by cases hm) h

theorem readTree_of_readValue {rest : List Token} (h : readValue aliases p = .ok (n, rest)) :
    readTree aliases p = .ok (n, rest) := by
  unfold readValue at h
  split at h
  · cases h
  · exact h

theorem keyword_of_bracketOperand {stop bracket : Token} {ts rest : List Token}
    (h : bracketOperand stop bracket ts = .ok (n, rest)) : ∃ s, n = .keyword .indexMemory s := by
  unfold bracketOperand at h
  dsimp only at h
  split at h
  · split at h
    · cases h
      exact ⟨_, rfl⟩
    · cases h
  · cases h

/-- An operand that is an expression is read as one. -/
theorem readTree_of_readOperand (hn : n.isExpression = true)
    (h : readOperand aliases p = .ok (n, [])) : readTree aliases p = .ok (n, []) := by
  rcases readOperand_cases aliases p with
    hread | ⟨t, ts, htokens, ⟨r, -, hread⟩ | ⟨-, hread⟩ | ⟨hkind, rfl, hread⟩⟩
  all_goals rw [hread] at h
  · exact h
  · cases h
    cases hn
  · obtain ⟨s, rfl⟩ := keyword_of_bracketOperand h
    cases hn
  · obtain ⟨m, hm, hrest⟩ := map_eq_ok h
    cases hrest
    unfold wordOperand at hm
    split at hm
    · cases hm
      cases hn
    · split at hm
      · cases hm
      · rename_i i hi
        split at hm
        · cases hm
          cases hn
        · rename_i hnone
          cases hm
          have hstart : operandStart aliases t = .ok (.inr (.name i t.span)) := by
            rw [operandStart, hkind]
            dsimp only
            rw [nameOf, hi]
            dsimp only
            rw [hnone]
            rfl
          rw [readTree, readExpression, htokens]
          exact readFrom_starts hstart p.stop [] []

/-- What is read as an expression is an operand, if it is more than one token. -/
theorem readOperand_of_readTree {rest : List Token} (h : readTree aliases p = .ok (n, rest))
    (hlong : p.tokens.length ≠ 1) : readOperand aliases p = .ok (n, rest) := by
  have hrefused : ∀ t us d, p.tokens = t :: us → operandStart aliases t ≠ .error d := by
    intro t us d htokens hstart
    rw [readTree, readExpression, htokens, readFrom_refused hstart] at h
    cases h
  rcases readOperand_cases aliases p with
    hread | ⟨t, ts, htokens, ⟨r, hkind, -⟩ | ⟨hkind, -⟩ | ⟨-, rfl, -⟩⟩
  · exact hread.trans h
  · exact absurd (by rw [operandStart, hkind]) (hrefused t ts _ htokens)
  · exact absurd (by rw [operandStart, hkind]) (hrefused t ts _ htokens)
  · exact absurd (by rw [htokens]; rfl) hlong

/-- A register that is no token of its own is an alias that stands alone. -/
theorem tokens_of_register {r : UInt8} {s : Span} {t : Token}
    (h : readOperand aliases p = .ok (.register r s, [])) (ht : t ∈ p.tokens)
    (hname : t.kind = .name) : p.tokens = [t] := by
  rcases readOperand_cases aliases p with
    hread | ⟨u, us, htokens, ⟨k, hkind, hread⟩ | ⟨-, hread⟩ | ⟨-, rfl, -⟩⟩
  · rw [hread] at h
    cases isExpression_of_readTree h
  · rw [hread] at h
    cases h
    rw [htokens, List.mem_singleton] at ht
    rw [ht, hkind] at hname
    cases hname
  · rw [hread] at h
    obtain ⟨s', hs⟩ := keyword_of_bracketOperand h
    cases hs
  · rw [htokens, List.mem_singleton] at ht
    rw [htokens, ht]

variable (haliases : aliases.Like .layout aliases')

include haliases

theorem writtenOut_readTree (hp : p.Spelt spell p')
    (hpermitted : p.Permitted F spell (readTree aliases)) :
    ReadsWritten F (readTree aliases) (readTree aliases') p p' := by
  intro n h
  exact writtenOut_readFrom haliases
    (tokensWritten_of_spelt (isExpression_of_readTree h) hp.tokens (hpermitted n h)) .nil .none h

theorem writtenOut_readValue (hp : p.Spelt spell p')
    (hpermitted : p.Permitted F spell (readTree aliases)) :
    ReadsWritten F (readValue aliases) (readValue aliases') p p' := by
  intro n h
  obtain ⟨n', hn', hwritten⟩ :=
    writtenOut_readTree haliases hp hpermitted n (readTree_of_readValue h)
  refine ⟨n', ?_, hwritten⟩
  unfold readValue
  split
  · rename_i hempty
    rw [readTree, readExpression, List.isEmpty_iff.mp hempty.1] at hn'
    cases hn'
  · exact hn'

/-- An operand is the same, an expression in which names are written out, or an alias that is
written as the register. -/
theorem writtenOut_readOperand (hp : p.Spelt spell p')
    (hpermitted : p.Permitted F spell (readOperand aliases)) :
    ReadsWritten F (readOperand aliases) (readOperand aliases') p p' := by
  intro n h
  have hts := hpermitted n h
  by_cases hall : ∀ t ∈ p.tokens, t.Kept spell
  · have hlike : p.Like .layout p' :=
      ⟨like_of_map_face (hp.tokens.map_face_of_kept hall), hp.stop⟩
    rcases (agree_readOperand haliases hlike fun t _ => Likeness.layout_knows t.chars).results with
      ⟨⟨m, rest⟩, ⟨m', rest'⟩, hm, hm', hread⟩ | ⟨d, -, hd, -, -⟩
    · rw [h] at hm
      cases hm
      have hrest := hread.snd
      dsimp only at hrest
      cases hrest
      exact ⟨m', hm', Node.Like.writtenOut n hread.fst⟩
    · rw [h] at hd
      cases hd
  · obtain ⟨t, ht, hkept⟩ : ∃ t ∈ p.tokens, ¬ t.Kept spell := by
      simpa only [not_forall, exists_prop] using hall
    have hmem := (hts t ht).resolve_left hkept
    obtain ⟨hname, ⟨r, s, rfl, hregister⟩ | ⟨hexpression, hvalue⟩⟩ := Node.mem_spellings hmem
    · obtain ⟨c, d, hspell, hc, hd⟩ := mem_registerTexts hregister
      have htokens := hp.tokens
      rw [tokens_of_register h ht hname] at htokens
      obtain ⟨vs, ws, hvs, hfaces, hws⟩ := htokens.cons
      rw [hws.eq_nil, List.append_nil] at hvs
      rw [hspell, faces_registerChars hc hd delimited_nil] at hfaces
      obtain ⟨u, rfl, hkind, -⟩ := exists_of_map_face_singleton hfaces
      refine ⟨.register r u.span, ?_, .register⟩
      rw [readOperand, hvs]
      simp only [hkind, UInt8.ofNat_toNat]
    · obtain ⟨n', hn', hwritten⟩ := writtenOut_readFrom haliases
        (tokensWritten_of_spelt hexpression hp.tokens hts) .nil .none
        (readTree_of_readOperand hexpression h)
      refine ⟨n', readOperand_of_readTree hn' ?_, hwritten⟩
      have hlength : (faces (spell t)).length ≤ p'.tokens.length := by
        rw [← List.length_map Token.face, hp.tokens]
        have hmem := List.mem_map_of_mem (f := fun t => faces (spell t)) ht
        exact (List.sublist_flatten_of_mem hmem).length_le
      obtain ⟨i, v, -, -, -, hspell⟩ := mem_valueTexts hvalue
      rw [hspell, faces_enclosed] at hlength
      simp only [List.length_cons] at hlength
      omega

end Operands

end Chip8.Asm
