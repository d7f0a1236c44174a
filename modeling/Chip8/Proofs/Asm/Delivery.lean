import Chip8.Asm.Reader

/-! # What stands in front of a reader

How the tokens of one line come out of a lexer, one at a time.

* `Ahead stop a ts l`: in front of the lexer `l` stand the tokens `ts`, all of them code, then the
  token `stop`, and behind that one the lexer is `a`. `Taken` is the same after one token.
* `Recovers e l`: skipping the rest of the line leads from `l` to `e`. `Edge` says so of the place
  behind a stop; with that it holds of every place in front of it (`Ahead.recovers`), and behind
  every refusal (`Taken.recovers_refuse`).
* `Follows` compares a reading from a state with a result that is computed from the whole line: one
  answer, or one diagnostic. It is kept by `bind`. -/

namespace Chip8.Asm

namespace Reading

variable {σ α β γ δ : Type}

/-! ### Outcomes -/

section Outcomes

variable {m : Reading σ α} {s s' : σ}

@[simp] theorem outcome_ofExcept (x : Except Diagnostic α) (s : σ) :
    (MonadExcept.ofExcept x : Reading σ α).outcome s = some (x, s) := by
  cases x <;> rfl

theorem outcome_bind_ok {a : α} (h : m.outcome s = some (.ok a, s')) (f : α → Reading σ β) :
    (m >>= f).outcome s = (f a).outcome s' := by
  show (m.outcome s).bind (fun x => ExceptT.bindCont f x.1 x.2) = _
  rw [h]
  rfl

theorem outcome_bind_error {d : Diagnostic} (h : m.outcome s = some (.error d, s'))
    (f : α → Reading σ β) : (m >>= f).outcome s = some (.error d, s') := by
  show (m.outcome s).bind (fun x => ExceptT.bindCont f x.1 x.2) = _
  rw [h]
  rfl

end Outcomes

/-! ### Results that are followed -/

/-- The reading gives an answer as the result does, with `R` of the two and the state it stops in;
or both are refused with one diagnostic, with `E` of that state. -/
inductive Follows (E : σ → Prop) (R : β → α → σ → Prop) :
    Except Diagnostic β → Option (Except Diagnostic α × σ) → Prop
  | ok {b : β} {a : α} {s : σ} (h : R b a s) : Follows E R (.ok b) (some (.ok a, s))
  | error {d : Diagnostic} {s : σ} (h : E s) : Follows E R (.error d) (some (.error d, s))

namespace Follows

variable {E : σ → Prop} {R : β → α → σ → Prop} {S : δ → γ → σ → Prop}
  {x : Except Diagnostic β} {m : Reading σ α} {s : σ}

theorem results {y : Option (Except Diagnostic α × σ)} (h : Follows E R x y) :
    (∃ b a s, x = .ok b ∧ y = some (.ok a, s) ∧ R b a s) ∨
      ∃ d s, x = .error d ∧ y = some (.error d, s) ∧ E s := by
  cases h with
  | ok h => exact Or.inl ⟨_, _, _, rfl, rfl, h⟩
  | error h => exact Or.inr ⟨_, _, rfl, rfl, h⟩

theorem bind (h : Follows E R x (m.outcome s)) {f : β → Except Diagnostic δ}
    {g : α → Reading σ γ} (hfg : ∀ b a s', R b a s' → Follows E S (f b) ((g a).outcome s')) :
    Follows E S (x >>= f) ((m >>= g).outcome s) := by
  rcases h.results with ⟨b, a, s', hx, hm, hr⟩ | ⟨d, s', hx, hm, he⟩
  · rw [outcome_bind_ok hm, hx]
    exact hfg b a s' hr
  · rw [outcome_bind_error hm, hx]
    exact .error he

theorem imp {y : Option (Except Diagnostic α × σ)} {R' : β → α → σ → Prop} (h : Follows E R x y)
    (hr : ∀ b a s, R b a s → R' b a s) : Follows E R' x y := by
  cases h with
  | ok h => exact .ok (hr _ _ _ h)
  | error h => exact .error h

/-- An answer is turned into another, on both sides. -/
theorem map (h : Follows E R x (m.outcome s)) {f : β → δ} {g : α → Reading σ γ}
    (hfg : ∀ b a s', R b a s' → ∃ c, (g a).outcome s' = some (.ok c, s') ∧ S (f b) c s') :
    Follows E S (x.map f) ((m >>= g).outcome s) := by
  rcases h.results with ⟨b, a, s', hx, hm, hr⟩ | ⟨d, s', hx, hm, he⟩
  · obtain ⟨c, hg, hs⟩ := hfg b a s' hr
    rw [outcome_bind_ok hm, hg, hx]
    exact .ok hs
  · rw [outcome_bind_error hm, hx]
    exact .error he

/-- A result that is known on its own. -/
theorem ofExcept (he : E s) (x : Except Diagnostic α) :
    Follows E (fun b a s' => b = a ∧ s' = s) x
      ((MonadExcept.ofExcept x : Reading σ α).outcome s) := by
  rw [outcome_ofExcept]
  cases x with
  | ok a => exact .ok ⟨rfl, rfl⟩
  | error d => exact .error he

end Follows

end Reading

open Reading (Follows)

/-! ### One token -/

namespace Lexer

variable {l m : Lexer} {t : Token}

theorem pushed_next (h : l.next = (t, m)) : m.pushed = none := by
  unfold next at h
  cases hpushed : l.pushed with
  | some u =>
      rw [hpushed] at h
      rw [← (Prod.mk.inj h).2]
  | none =>
      rw [hpushed] at h
      rw [← (Prod.mk.inj h).2]

/-- A token given back is the next one. -/
theorem next_unread (hm : m.pushed = none) (t : Token) : (m.unread t).next = (t, m) := by
  obtain ⟨cursor, pushed, keepsBlanks⟩ := m
  dsimp only at hm
  rw [hm]
  rfl

theorem peek_eq (h : l.next = (t, m)) : l.peek = (t, m.unread t) := by
  unfold peek
  rw [h]

end Lexer

namespace Reader

variable {α : Type} {l m : Lexer} {t : Token}

theorem outcome_ofLexer (search : Lexer → Option (α × Lexer)) (l : Lexer) :
    (ofLexer search).outcome l = (search l).map fun x => (.ok x.1, x.2) := by
  show (search l).bind _ = _
  cases search l <;> rfl

theorem outcome_next (h : l.next = (t, m)) : nextToken.outcome l = some (.ok t, m) := by
  show some (Except.ok l.next.1, l.next.2) = _
  rw [h]

theorem outcome_next_bind (h : l.next = (t, m)) (f : Token → TokenReading α) :
    (nextToken >>= f).outcome l = (f t).outcome m :=
  Reading.outcome_bind_ok (outcome_next h) f

theorem outcome_peek_bind (h : l.next = (t, m)) (f : Token → TokenReading α) :
    (peekToken >>= f).outcome l = (f t).outcome (m.unread t) := by
  refine Reading.outcome_bind_ok ?_ f
  show some (Except.ok l.peek.1, l.peek.2) = _
  rw [Lexer.peek_eq h]

/-- Where a refusal stops. -/
def refused (t : Token) (l : Lexer) : Lexer := if t.kind.endsLine then l.unread t else l

theorem outcome_refuse (t : Token) (expected : String) (l : Lexer) :
    (refuse t expected : TokenReading α).outcome l =
      some (.error (.unexpected t expected), refused t l) := by
  unfold refuse refused
  split <;> rfl

theorem outcome_demand (h : l.next = (t, m)) (kind : TokenKind) (expected : String) :
    (demand kind expected).outcome l =
      if t.kind = kind then some (.ok t, m)
      else some (.error (.unexpected t expected), refused t m) := by
  rw [demand, outcome_next_bind h]
  split
  · rfl
  · exact outcome_refuse t expected m

/-! ### Recovery -/

/-- Skipping the rest of a line leads to `e`. -/
def Recovers (e l : Lexer) : Prop := recover.outcome l = some (.ok (), e)

theorem recovers_last {e l : Lexer} (h : l.next = (t, e)) (ht : t.kind.endsLine = true) :
    Recovers e l := by
  rw [Recovers, recover, outcome_ofLexer, Lexer.skipLine, h]
  dsimp only
  rw [if_pos ht]
  rfl

theorem recovers_next {e l m : Lexer} (h : l.next = (t, m)) (ht : t.kind.endsLine = false)
    (hm : Recovers e m) : Recovers e l := by
  rw [Recovers, recover, outcome_ofLexer] at hm ⊢
  rw [Lexer.skipLine, h]
  dsimp only
  rw [if_neg (ne_true_of_eq_false ht)]
  exact hm

/-! ### The tokens of a line -/

theorem endsLine_of_endsCode {k : TokenKind} (h : k.endsCode = false) : k.endsLine = false := by
  cases k <;> first | rfl | cases h

theorem ne_of_endsCode {k k' : TokenKind} (h : k.endsCode = true) (h' : k'.endsCode = false) :
    k ≠ k' := by
  rintro rfl
  exact Bool.false_ne_true (h'.symm.trans h)

/-- The place `a` behind a token that ends an operand: `e` if the token ends the line, else a place
from which the rest of the line can be skipped. -/
structure Edge (e : Lexer) (stop : Token) (a : Lexer) : Prop where
  kind : stop.kind = .comma ∨ stop.kind.endsCode = true
  unpushed : a.pushed = none
  line : stop.kind.endsLine = true → a = e
  inside : stop.kind.endsLine = false → Recovers e a

/-- In front of a lexer stand tokens of code and then `stop`, behind which the lexer is `a`. -/
inductive Ahead (stop : Token) (a : Lexer) : List Token → Lexer → Prop
  | done {l : Lexer} (next : l.next = (stop, a)) : Ahead stop a [] l
  | token {t : Token} {ts : List Token} {l m : Lexer} (next : l.next = (t, m))
      (code : t.kind.endsCode = false) (rest : Ahead stop a ts m) : Ahead stop a (t :: ts) l

/-- The first of the tokens in front of a lexer, or the stop behind them, has been taken. -/
inductive Taken (stop : Token) (a : Lexer) : List Token → Token → Lexer → Prop
  | done : Taken stop a [] stop a
  | token {t : Token} {ts : List Token} {l : Lexer} (code : t.kind.endsCode = false)
      (rest : Ahead stop a ts l) : Taken stop a (t :: ts) t l

variable {stop : Token} {a e : Lexer} {ts : List Token}

namespace Ahead

theorem take (h : Ahead stop a ts l) :
    ∃ t m, l.next = (t, m) ∧ m.pushed = none ∧ Taken stop a ts t m := by
  cases h with
  | done hnext => exact ⟨stop, a, hnext, Lexer.pushed_next hnext, .done⟩
  | @token t ts l m hnext hcode h =>
      exact ⟨t, m, hnext, Lexer.pushed_next hnext, .token hcode h⟩

theorem recovers (h : Ahead stop a ts l) (hedge : Edge e stop a) : Recovers e l := by
  induction h with
  | @done l hnext =>
      cases hends : stop.kind.endsLine with
      | true =>
          rw [hedge.line hends] at hnext
          exact recovers_last hnext hends
      | false => exact recovers_next hnext hends (hedge.inside hends)
  | token hnext hcode _ ih => exact recovers_next hnext (endsLine_of_endsCode hcode) ih

/-- The tokens up to one among them, and those behind it. -/
theorem split {us vs : List Token} {l : Lexer} (h : Ahead stop a (us ++ t :: vs) l) :
    ∃ b, Ahead t b us l ∧ b.pushed = none ∧ Ahead stop a vs b := by
  induction us generalizing l with
  | nil =>
      cases h with
      | @token t ts l m hnext hcode h => exact ⟨m, .done hnext, Lexer.pushed_next hnext, h⟩
  | cons u us ih =>
      cases h with
      | token hnext hcode h =>
          obtain ⟨b, hus, hb, hvs⟩ := ih h
          exact ⟨b, .token hnext hcode hus, hb, hvs⟩

end Ahead

namespace Taken

theorem head (h : Taken stop a ts t m) : ts.head?.getD stop = t := by
  cases h <;> rfl

theorem putBack (h : Taken stop a ts t m) (hm : m.pushed = none) :
    Ahead stop a ts (m.unread t) := by
  cases h with
  | done => exact .done (Lexer.next_unread hm _)
  | token hcode h => exact .token (Lexer.next_unread hm _) hcode h

/-- **A refusal never leaves the line**: what is skipped behind it ends where the line ends. -/
theorem recovers_refused (h : Taken stop a ts t m) (hedge : Edge e stop a) :
    Recovers e (refused t m) := by
  unfold refused
  cases h with
  | done =>
      split
      · rename_i hends
        rw [← hedge.line hends]
        exact recovers_last (Lexer.next_unread hedge.unpushed _) hends
      · rename_i hends
        exact hedge.inside (Bool.eq_false_iff.mpr hends)
  | token hcode h =>
      rw [if_neg (ne_true_of_eq_false (endsLine_of_endsCode hcode))]
      exact h.recovers hedge

theorem follows_refuse {β : Type} {R : β → α → Lexer → Prop} (h : Taken stop a ts t m)
    (hedge : Edge e stop a) (expected : String) :
    Follows (Recovers e) R (.error (.unexpected t expected))
      ((refuse t expected : TokenReading α).outcome m) := by
  rw [outcome_refuse]
  exact .error (h.recovers_refused hedge)

/-- A token of a kind that no stop has is one of the tokens. -/
theorem of_kind (h : Taken stop a ts t m) (hedge : Edge e stop a) {kind : TokenKind}
    (ht : t.kind = kind) (hcomma : kind ≠ .comma) (hcode : kind.endsCode = false) :
    ∃ us, ts = t :: us ∧ Ahead stop a us m := by
  subst ht
  cases h with
  | done =>
      rcases hedge.kind with hkind | hkind
      · exact absurd hkind hcomma
      · exact absurd rfl (ne_of_endsCode hkind hcode)
  | token _ h => exact ⟨_, rfl, h⟩

end Taken

/-- Take a token of a kind that no stop has. -/
theorem follows_demand (hedge : Edge e stop a) (hahead : Ahead stop a ts l) {kind : TokenKind}
    (hstop : stop.kind ≠ kind) (expected : String) :
    Follows (Recovers e)
      (fun x t l' => x.1 = t ∧ ts = t :: x.2 ∧ t.kind = kind ∧ Ahead stop a x.2 l')
      (expect kind expected stop ts) ((demand kind expected).outcome l) := by
  obtain ⟨t, m, hnext, -, htaken⟩ := hahead.take
  unfold expect
  rw [outcome_demand hnext, htaken.head]
  dsimp only
  by_cases hkind : t.kind = kind
  · rw [if_pos hkind, if_pos hkind]
    cases htaken with
    | done => exact absurd hkind hstop
    | token _ hrest => exact .ok ⟨rfl, rfl, hkind, hrest⟩
  · rw [if_neg hkind, if_neg hkind]
    exact .error (htaken.recovers_refused hedge)

end Reader

end Chip8.Asm
