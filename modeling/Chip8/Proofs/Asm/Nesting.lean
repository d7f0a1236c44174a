import Chip8.Asm.Reader
import Chip8.Proofs.Asm.Places
import Chip8.Proofs.Asm.WrittenLines

/-! # Nesting

The place of an operator is around those of its operands.

* `Joins P`: a kind of places is closed under going from one place to a later one, and so under the
  joins that reading makes.
* `Node.Framed P`: every part of a tree is at a place of this kind, around the parts below it.
* **Reading.** What is open stands one behind the other in front of the operand that is being read
  (`Stacked`, `Complete`). Each step of reading keeps that, so what is read from tokens in order is
  framed (`framed_readFrom`, `framed_readOperand`). -/

namespace Chip8.Asm

/-! ### Spans in order -/

namespace Span

variable {a b whole : Span}

theorem start_le_stop (s : Span) : s.start ≤ s.stop := Nat.le_add_right _ _

theorem Within.trans {s : Span} (h : s.Within a) (h' : a.Within whole) : s.Within whole :=
  ⟨h'.1.trans h.1, h.2.trans h'.2⟩

theorem stop_through (h : a.stop ≤ b.start) : (a.through b).stop = b.stop := by
  have ha := a.start_le_stop
  have hb := b.start_le_stop
  show a.start + (b.stop - a.start) = b.stop
  omega

theorem within_through_left (h : a.stop ≤ b.start) : a.Within (a.through b) := by
  constructor
  · exact Nat.le_refl a.start
  · rw [stop_through h]
    exact h.trans b.start_le_stop

theorem within_through_right (h : a.stop ≤ b.start) : b.Within (a.through b) := by
  constructor
  · exact a.start_le_stop.trans h
  · rw [stop_through h]

theorem Within.through (ha : a.Within whole) (hb : b.Within whole) (h : a.stop ≤ b.start) :
    (a.through b).Within whole := by
  constructor
  · exact ha.1
  · rw [stop_through h]
    exact hb.2

/-- The join with a later span goes through to its stop. -/
theorem join_eq_through (h : a.stop ≤ b.start) (hb : b.stop < 0x100000000) :
    a.join b = a.through b := by
  have ha := a.start_le_stop
  have hle := b.start_le_stop
  have hstart : min a.start b.start = a.start := by omega
  have hstop : max a.stop b.stop = b.stop := by omega
  have hlen : b.stop - a.start < 0x100000000 := by omega
  rw [join, hstart, hstop, Nat.mod_eq_of_lt hlen, Span.through]

end Span

/-- A kind of places in sources of less than four gigabytes, closed under going from one of them to
a later one. -/
structure Joins (P : Span → Prop) : Prop where
  small : ∀ s, P s → s.stop < 0x100000000
  through : ∀ a b, P a → P b → a.stop ≤ b.start → P (a.through b)

theorem Joins.join {P : Span → Prop} (hP : Joins P) {a b : Span} (ha : P a) (hb : P b)
    (h : a.stop ≤ b.start) : P (a.join b) := by
  rw [Span.join_eq_through h (hP.small b hb)]
  exact hP.through a b ha hb h

/-- The places of a source within one span join. -/
theorem joins_isPlace {source : List Char} (hsize : byteLength source < 0x100000000)
    (whole : Span) : Joins fun s => IsPlace source s ∧ s.Within whole := by
  constructor
  · intro s hs
    exact hs.1.stop_le.trans_lt hsize
  · intro a b ha hb h
    refine ⟨?_, ha.2.through hb.2 h⟩
    rw [isPlace_iff, Span.stop_through h]
    exact ⟨(isPlace_iff.mp ha.1).1, (isPlace_iff.mp hb.1).2⟩

/-! ### Trees -/

variable {P : Span → Prop}

/-- Every part of the tree is at a place of a kind, and around the parts below it. -/
inductive Node.Framed (P : Span → Prop) : Node → Prop
  | number {v : Int64} {s : Span} (place : P s) : Framed P (.number v s)
  | register {r : UInt8} {s : Span} (place : P s) : Framed P (.register r s)
  | keyword {k : Keyword} {s : Span} (place : P s) : Framed P (.keyword k s)
  | name {i : Identifier} {s : Span} (place : P s) : Framed P (.name i s)
  | apply {op : Operator} {ns : List Node} {s : Span} (place : P s)
      (operands : ∀ n ∈ ns, Framed P n) (around : ∀ n ∈ ns, n.span.Within s) :
      Framed P (.apply op ns s)

namespace Node.Framed

variable {n left : Node} {s : Span}

theorem place (h : n.Framed P) : P n.span := by
  cases h <;> assumption

theorem withSpan (h : n.Framed P) (hs : P s) (hwithin : n.span.Within s) :
    (n.withSpan s).Framed P := by
  cases h with
  | number => exact .number hs
  | register => exact .register hs
  | keyword => exact .keyword hs
  | name => exact .name hs
  | apply _ hns haround => exact .apply hs hns fun k hk => (haround k hk).trans hwithin

variable (hP : Joins P) (op : Operator)

include hP

theorem prefixed (hs : P s) (h : n.Framed P) (hle : s.stop ≤ n.span.start) :
    (Node.apply op [n] (s.join n.span)).Framed P := by
  have hsmall := hP.small _ h.place
  refine .apply (hP.join hs h.place hle) ?_ ?_
  · intro k hk
    rw [List.mem_singleton.mp hk]
    exact h
  · intro k hk
    rw [List.mem_singleton.mp hk, Span.join_eq_through hle hsmall]
    exact Span.within_through_right hle

theorem binary (hleft : left.Framed P) (h : n.Framed P) (hle : left.span.stop ≤ n.span.start) :
    (Node.apply op [left, n] (left.span.join n.span)).Framed P := by
  have hsmall := hP.small _ h.place
  refine .apply (hP.join hleft.place h.place hle) ?_ ?_
  · intro k hk
    rcases List.mem_pair.mp hk with rfl | rfl
    · exact hleft
    · exact h
  · intro k hk
    rw [Span.join_eq_through hle hsmall]
    rcases List.mem_pair.mp hk with rfl | rfl
    · exact Span.within_through_left hle
    · exact Span.within_through_right hle

end Node.Framed

/-! ### What is open -/

/-- The place of what is open. -/
def Frame.span : Frame → Span
  | .prefixed _ s | .paren s => s
  | .binary _ left => left.span

/-- What is open is at a place of a kind, or is a tree that is framed. -/
def Frame.Framed (P : Span → Prop) : Frame → Prop
  | .prefixed _ s | .paren s => P s
  | .binary _ left => left.Framed P

/-- What is open stands one behind the other, the last of it on top and in front of an offset. -/
def Stacked (P : Span → Prop) : Nat → List Frame → Prop
  | _, [] => True
  | hi, f :: frames => f.span.stop ≤ hi ∧ f.Framed P ∧ Stacked P f.span.start frames

/-- An operand has been read up to an offset, and stands behind what is open. -/
structure Complete (P : Span → Prop) (hi : Nat) (frames : List Frame) (n : Node) : Prop where
  framed : n.Framed P
  stop : n.span.stop ≤ hi
  stacked : Stacked P n.span.start frames

variable {lo hi : Nat} {frames : List Frame} {n : Node} {t : Token} {aliases : Aliases}

theorem Stacked.weaken (h : Stacked P lo frames) (hle : lo ≤ hi) : Stacked P hi frames := by
  cases frames with
  | nil => trivial
  | cons f frames => exact ⟨h.1.trans hle, h.2⟩

section Steps

variable (hP : Joins P)

include hP

/-- A tree that goes from what is on top to the operand stands behind what is below. -/
theorem Complete.joined {f : Frame} {m : Node} (h : Complete P hi (f :: frames) n)
    (hm : m.Framed P) (hspan : m.span = f.span.join n.span) : Complete P hi frames m := by
  obtain ⟨hle, -, hbelow⟩ := h.stacked
  rw [Span.join_eq_through hle (hP.small _ h.framed.place)] at hspan
  refine ⟨hm, ?_, ?_⟩
  · rw [hspan, Span.stop_through hle]
    exact h.stop
  · rw [hspan]
    exact hbelow

theorem Complete.settle (h : Complete P hi frames n) :
    Complete P hi (Frame.settle frames n).1 (Frame.settle frames n).2 := by
  induction frames generalizing n with
  | nil => exact h
  | cons f frames ih =>
      cases f with
      | paren s => exact h
      | binary op left => exact h
      | prefixed op s =>
          obtain ⟨hle, hs, -⟩ := h.stacked
          rw [Frame.settle]
          apply ih
          exact h.joined hP (.prefixed hP op hs h.framed hle) rfl

theorem Complete.close (h : Complete P hi frames n) (strength : Nat) :
    Complete P hi (Frame.close strength frames n).1 (Frame.close strength frames n).2 := by
  induction frames generalizing n with
  | nil => exact h
  | cons f frames ih =>
      cases f with
      | paren s => exact h
      | prefixed op s => exact h
      | binary op left =>
          rw [Frame.close]
          split
          · obtain ⟨hle, hleft, -⟩ := h.stacked
            apply ih
            exact h.joined hP (.binary hP op hleft h.framed hle) rfl
          · exact h

/-- Where reading goes on or ends behind an operand. -/
def Continuation.Keeps (P : Span → Prop) (hi : Nat) : Continuation → Prop
  | .operand frames => Stacked P hi frames
  | .operator frames n => Complete P hi frames n
  | .done n => n.Framed P
  | .unclosed => True

theorem keeps_finish (h : Complete P lo frames n) : (finish frames n).Keeps P hi := by
  have hclose := h.close hP 0
  unfold finish
  split
  · rename_i m hm
    rw [hm] at hclose
    exact hclose.framed
  · trivial

/-- A parenthesis that is closed is around what it encloses. -/
theorem Complete.enclosed {s : Span} (h : Complete P lo (.paren s :: frames) n)
    (hle : lo ≤ t.span.start) (ht : P t.span) :
    Complete P t.span.stop frames (n.withSpan (s.join t.span)) := by
  obtain ⟨hopen, hs, hbelow⟩ := h.stacked
  have hn := n.span.start_le_stop
  have hstop := h.stop
  have hclosed : s.stop ≤ t.span.start := by
    dsimp only [Frame.span] at hopen
    omega
  have hwithin : n.span.Within (s.through t.span) := by
    constructor
    · exact s.start_le_stop.trans hopen
    · rw [Span.stop_through hclosed]
      exact (hstop.trans hle).trans t.span.start_le_stop
  rw [Span.join_eq_through hclosed (hP.small _ ht)]
  refine ⟨h.framed.withSpan (hP.through _ _ hs ht hclosed) hwithin, ?_, ?_⟩
  · rw [Node.span_withSpan, Span.stop_through hclosed]
  · rw [Node.span_withSpan]
    exact hbelow

theorem keeps_continueWith (h : Complete P lo frames n) (hle : lo ≤ t.span.start)
    (ht : P t.span) : (continueWith frames n t).Keeps P t.span.stop := by
  have hend : lo ≤ t.span.stop := hle.trans t.span.start_le_stop
  unfold continueWith
  split
  · split
    · have hclose := h.close hP
      exact ⟨(hclose _).stop.trans hend, (hclose _).framed, (hclose _).stacked⟩
    · exact keeps_finish hP h
  · have hclose := h.close hP 0
    split
    · rename_i s below m hm
      rw [hm] at hclose
      exact (hclose.enclosed hP hle ht).settle hP
    · rename_i m _ hm
      rw [hm] at hclose
      exact hclose.framed
  · exact keeps_finish hP h

end Steps

/-- A token opens something where it stands. -/
theorem framed_of_opens {f : Frame} (h : operandStart aliases t = .ok (.inl f)) :
    f.span = t.span ∧ (P t.span → f.Framed P) := by
  unfold operandStart at h
  split at h
  · obtain ⟨v, -, hv⟩ := map_eq_ok h
    cases hv
  · obtain ⟨m, -, hm⟩ := map_eq_ok h
    cases hm
  · cases h
    exact ⟨rfl, id⟩
  · cases h
  · split at h
    · cases h
      exact ⟨rfl, id⟩
    · cases h
  · cases h

/-- A token that is an operand is one where it stands. -/
theorem framed_of_starts (h : operandStart aliases t = .ok (.inr n)) :
    n.span = t.span ∧ (P t.span → n.Framed P) := by
  unfold operandStart at h
  split at h
  · obtain ⟨v, -, hv⟩ := map_eq_ok h
    cases hv
    exact ⟨rfl, .number⟩
  · obtain ⟨m, hm, hn⟩ := map_eq_ok h
    cases hn
    unfold nameOf at hm
    split at hm
    · cases hm
    · split at hm
      · cases hm
      · cases hm
        exact ⟨rfl, .name⟩
  · cases h
  · cases h
  · split at h <;> cases h
  · cases h

/-- Reading has come to an offset, with an operand just read or with one due. -/
def Poised (P : Span → Prop) (hi : Nat) (frames : List Frame) : Option Node → Prop
  | none => Stacked P hi frames
  | some n => Complete P hi frames n

/-- **What is read from tokens in order is framed.** The induction is on the tokens. -/
theorem framed_readFrom (hP : Joins P) {stop : Token} {operand : Option Node} {ts rest : List Token}
    (hts : InOrder P hi ts) (hopen : Poised P hi frames operand)
    (h : readFrom aliases stop frames operand ts = .ok (n, rest)) : n.Framed P := by
  induction ts generalizing hi frames operand with
  | nil =>
      unfold readFrom at h
      split at h
      · cases h
      · rename_i m
        have hkeeps : (finish frames m).Keeps P hi := keeps_finish hP hopen
        split at h
        · rename_i k hk
          rw [hk] at hkeeps
          cases h
          exact hkeeps
        · cases h
  | cons t ts ih =>
      obtain ⟨hle, ht, hts⟩ := hts
      unfold readFrom at h
      split at h
      · -- An operand is due.
        split at h
        · cases h
        · rename_i f hf
          obtain ⟨hspan, hframed⟩ := framed_of_opens (P := P) hf
          have hnext : Poised P t.span.stop (f :: frames) none := by
            refine ⟨hspan ▸ Nat.le_refl _, hframed ht, ?_⟩
            rw [hspan]
            exact Stacked.weaken hopen hle
          exact ih hts hnext h
        · rename_i m hm
          obtain ⟨hspan, hframed⟩ := framed_of_starts (P := P) hm
          have hcomplete : Complete P t.span.stop frames m := by
            refine ⟨hframed ht, hspan ▸ Nat.le_refl _, ?_⟩
            rw [hspan]
            exact Stacked.weaken hopen hle
          have hnext : Poised P t.span.stop _ (some _) := hcomplete.settle hP
          exact ih hts hnext h
      · -- An operand was read.
        rename_i m
        have hkeeps := keeps_continueWith hP hopen hle ht
        split at h
        · rename_i below hbelow
          rw [hbelow] at hkeeps
          have hnext : Poised P t.span.stop below none := hkeeps
          exact ih hts hnext h
        · rename_i below k hk
          rw [hk] at hkeeps
          have hnext : Poised P t.span.stop below (some k) := hkeeps
          exact ih hts hnext h
        · rename_i k hk
          rw [hk] at hkeeps
          cases h
          exact hkeeps
        · cases h

/-! ### Operands -/

variable {p : Piece} {rest : List Token}

theorem framed_readTree (hP : Joins P) (hp : InOrder P lo p.tokens)
    (h : readTree aliases p = .ok (n, rest)) : n.Framed P := by
  have hstart : Poised P lo [] none := trivial
  exact framed_readFrom hP hp hstart h

theorem framed_wordOperand (ht : P t.span) (h : wordOperand aliases t = .ok n) : n.Framed P := by
  unfold wordOperand at h
  split at h
  · cases h
    exact .keyword ht
  · split at h
    · cases h
    · split at h
      · cases h
        exact .register ht
      · cases h
        exact .name ht

theorem framed_bracketOperand (hP : Joins P) {stop : Token} (hstop : stop.kind ≠ .bracketClose)
    {ts : List Token} (hts : InOrder P lo (t :: ts))
    (h : bracketOperand stop t ts = .ok (n, rest)) : n.Framed P := by
  unfold bracketOperand at h
  dsimp only at h
  split at h
  · split at h
    · rename_i hclose
      cases h
      -- The bracket is closed by a token, since what ends the operand closes none.
      cases ts with
      | nil => exact absurd hclose hstop
      | cons inner ts =>
          cases ts with
          | nil => exact absurd hclose hstop
          | cons last ts =>
              obtain ⟨-, hopen, hinner, -, hlast, hspan, -⟩ := hts
              refine .keyword (hP.join hopen hspan ?_)
              exact (hinner.trans inner.span.start_le_stop).trans hlast
    · cases h
  · cases h

/-- **An operand** that is read from tokens in order is framed. -/
theorem framed_readOperand (hP : Joins P) (hstop : p.stop.kind ≠ .bracketClose)
    (hp : InOrder P lo p.tokens) (h : readOperand aliases p = .ok (n, rest)) : n.Framed P := by
  rcases readOperand_cases aliases p with
    hread | ⟨t, ts, htokens, ⟨r, -, hread⟩ | ⟨-, hread⟩ | ⟨-, -, hread⟩⟩
  all_goals rw [hread] at h
  · exact framed_readTree hP hp h
  · cases h
    exact .register (hp.place t (htokens ▸ List.mem_cons_self))
  · exact framed_bracketOperand hP hstop (htokens ▸ hp) h
  · obtain ⟨m, hm, hrest⟩ := map_eq_ok h
    cases hrest
    exact framed_wordOperand (hp.place t (htokens ▸ List.mem_cons_self)) hm

end Chip8.Asm
