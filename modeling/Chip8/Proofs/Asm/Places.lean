import Chip8.Proofs.Asm.AlikePrograms
import Chip8.Proofs.Asm.LineByLine
import Chip8.Proofs.Asm.Tiling

/-! # Places

The spans that are read off a source are those of parts of it.

* **Parts.** A span is a place of the source if it is the span of some part of it (`IsPlace`). That
  is so if no character is cut at its start and stop (`isPlace_iff`), and then slicing the source by
  it gives this part (`isPlace_iff_slice`).
* **Joins.** In a source of less than four gigabytes the join of two places is a place. So
  `Likeness.placed` is a likeness, that of a reading beside itself where every span is a place, and
  what is reported and declared while lines are read is at places of the source (`placed_parse`).
* **Tokens.** The tokens of a line stand one behind the other, at places within the line
  (`Line.StandsIn.inOrder_tokens`). -/

namespace Chip8.Asm

variable {source front text back cs : List Char} {s : Span} {n lo : Nat}

/-! ### Parts -/

/-- Cut a text behind `n` bytes, unless a character or the end of the text is in the way. -/
def cut? : Nat → List Char → Option (List Char × List Char)
  | 0, cs => some ([], cs)
  | _ + 1, [] => none
  | n + 1, c :: cs =>
      if c.utf8Size ≤ n + 1 then
        (cut? (n + 1 - c.utf8Size) cs).map fun (taken, rest) => (c :: taken, rest)
      else none

/-- The text at a span. There is none if the span leaves the source or cuts a character. -/
def slice? (source : List Char) (s : Span) : Option (List Char) :=
  (cut? s.start source).bind fun (_, rest) => (cut? s.len rest).map Prod.fst

theorem cut?_byteLength (front back : List Char) :
    cut? (byteLength front) (front ++ back) = some (front, back) := by
  induction front with
  | nil => cases back <;> rfl
  | cons c cs ih =>
      have hpos := c.utf8Size_pos
      obtain ⟨n, hn⟩ : ∃ n, byteLength (c :: cs) = n + 1 := by
        refine ⟨byteLength (c :: cs) - 1, ?_⟩
        simp only [byteLength_cons]
        omega
      have hsize : c.utf8Size ≤ n + 1 ∧ n + 1 - c.utf8Size = byteLength cs := by
        simp only [byteLength_cons] at hn
        omega
      rw [hn, List.cons_append, cut?, if_pos hsize.1, hsize.2, ih]
      rfl

theorem cut?_eq_some :
    cut? n cs = some (front, back) ↔ cs = front ++ back ∧ byteLength front = n := by
  constructor
  · intro h
    induction cs generalizing n front with
    | nil =>
        cases n with
        | zero =>
            cases h
            exact ⟨rfl, rfl⟩
        | succ n => cases h
    | cons c cs ih =>
        cases n with
        | zero =>
            cases h
            exact ⟨rfl, rfl⟩
        | succ n =>
            rw [cut?, Option.ite_none_right_eq_some] at h
            obtain ⟨hle, h⟩ := h
            obtain ⟨⟨taken, rest⟩, hcut, hboth⟩ := Option.map_eq_some_iff.mp h
            cases hboth
            obtain ⟨rfl, hlength⟩ := ih hcut
            refine ⟨rfl, ?_⟩
            rw [byteLength_cons, hlength]
            omega
  · rintro ⟨rfl, rfl⟩
    exact cut?_byteLength front back

/-- The span is that of a part of the source. -/
def IsPlace (source : List Char) (s : Span) : Prop :=
  ∃ front text back, source = front ++ text ++ back ∧ s = ⟨byteLength front, byteLength text⟩

theorem slice?_eq_some : slice? source s = some text ↔
    ∃ front back, source = front ++ text ++ back ∧ s = ⟨byteLength front, byteLength text⟩ := by
  obtain ⟨start, len⟩ := s
  constructor
  · intro h
    obtain ⟨⟨front, rest⟩, hfront, h⟩ := Option.bind_eq_some_iff.mp h
    obtain ⟨⟨taken, back⟩, htaken, rfl⟩ := Option.map_eq_some_iff.mp h
    obtain ⟨rfl, rfl⟩ := cut?_eq_some.mp hfront
    obtain ⟨rfl, rfl⟩ := cut?_eq_some.mp htaken
    exact ⟨front, back, (List.append_assoc front taken back).symm, rfl⟩
  · rintro ⟨front, back, rfl, hspan⟩
    cases hspan
    rw [slice?, List.append_assoc, cut?_byteLength]
    show (cut? (byteLength text) (text ++ back)).map Prod.fst = some text
    rw [cut?_byteLength]
    rfl

/-- The places are where slicing gives a text, which is the slice of the source there. -/
theorem isPlace_iff_slice : IsPlace source s ↔
    slice? source s = some ((⟨source, 0⟩ : Cursor).slice s.start s.stop) := by
  constructor
  · rintro ⟨front, text, back, hsource, rfl⟩
    rw [slice?_eq_some.mpr ⟨front, back, hsource, rfl⟩, Cursor.slice]
    dsimp only [Span.stop]
    rw [hsource, Nat.add_sub_cancel_left, List.append_assoc, dropBytes_byteLength,
      takeBytes_byteLength]
  · intro h
    obtain ⟨front, back, hplace⟩ := slice?_eq_some.mp h
    exact ⟨front, _, back, hplace⟩

/-- No character is cut at the offset. -/
def Boundary (source : List Char) (n : Nat) : Prop := ∃ rest, Stands source n rest

theorem Boundary.le (h : Boundary source n) : n ≤ byteLength source := by
  obtain ⟨rest, front, rfl, rfl⟩ := h
  rw [byteLength_append]
  exact Nat.le_add_right _ _

theorem eq_nil_of_byteLength (h : byteLength cs = 0) : cs = [] := by
  cases cs with
  | nil => rfl
  | cons c cs =>
      have hpos := c.utf8Size_pos
      rw [byteLength_cons] at h
      omega

theorem isPlace_iff : IsPlace source s ↔ Boundary source s.start ∧ Boundary source s.stop := by
  constructor
  · rintro ⟨front, text, back, rfl, rfl⟩
    refine ⟨⟨text ++ back, front, List.append_assoc .., rfl⟩, back, front ++ text, rfl, ?_⟩
    exact byteLength_append front text
  · obtain ⟨start, len⟩ := s
    rintro ⟨⟨rest, front, rfl, rfl⟩, back, taken, hsource, hlength⟩
    dsimp only [Span.stop] at hlength
    rcases List.append_eq_append_iff.mp hsource with ⟨text, rfl, rfl⟩ | ⟨extra, rfl, rfl⟩
    · rw [byteLength_append] at hlength
      refine ⟨front, text, back, (List.append_assoc ..).symm, ?_⟩
      rw [Nat.add_left_cancel hlength]
    · -- What is taken up to the stop is no shorter than what stands in front of the start.
      rw [byteLength_append] at hlength
      obtain rfl : extra = [] := eq_nil_of_byteLength (by omega)
      refine ⟨taken, [], rest, by simp, ?_⟩
      rw [List.append_nil, byteLength_nil]
      simp only [byteLength_nil] at hlength
      congr 1
      omega

theorem IsPlace.stop_le (h : IsPlace source s) : s.stop ≤ byteLength source :=
  (isPlace_iff.mp h).2.le

/-- A place of the source is one of a longer source. -/
theorem IsPlace.append (h : IsPlace source s) (more : List Char) : IsPlace (source ++ more) s := by
  obtain ⟨front, text, back, rfl, rfl⟩ := h
  exact ⟨front, text, back ++ more, by rw [List.append_assoc], rfl⟩

/-! ### Joins -/

/-- The one span is within the other. -/
def Span.Within (s whole : Span) : Prop := whole.start ≤ s.start ∧ s.stop ≤ whole.stop

theorem IsPlace.join (hsize : byteLength source < 0x100000000) {a b : Span}
    (ha : IsPlace source a) (hb : IsPlace source b) : IsPlace source (a.join b) := by
  have hstop := Span.stop_join (ha.stop_le.trans_lt hsize) (hb.stop_le.trans_lt hsize)
  have hstart : (a.join b).start = min a.start b.start := rfl
  rw [isPlace_iff] at ha hb ⊢
  rw [hstart, hstop]
  constructor
  · rcases Nat.le_total a.start b.start with h | h
    · rw [Nat.min_eq_left h]
      exact ha.1
    · rw [Nat.min_eq_right h]
      exact hb.1
  · rcases Nat.le_total a.stop b.stop with h | h
    · rw [Nat.max_eq_right h]
      exact hb.2
    · rw [Nat.max_eq_left h]
      exact ha.2

/-- A reading beside itself, where every span is a place of the source. -/
def Likeness.placed (hsize : byteLength source < 0x100000000) : Likeness where
  place s s' := s = s' ∧ IsPlace source s
  word := Eq
  name := Eq
  ending a b := a = b ∧ b.endsCode = true
  place_join ha hb := by
    obtain ⟨rfl, ha⟩ := ha
    obtain ⟨rfl, hb⟩ := hb
    exact ⟨rfl, ha.join hsize hb⟩
  spelledAlike := .of_eq
  name_iff := eq_iff_of_eq
  ends := endsCode_of_eq

theorem Likeness.placed_knows (hsize : byteLength source < 0x100000000) (w : List Char) :
    (Likeness.placed hsize).Knows w :=
  knows_of_same id (fun _ => rfl) w

/-! ### Tokens -/

/-- The tokens stand one behind the other from an offset on, at places of a kind. -/
def InOrder (P : Span → Prop) : Nat → List Token → Prop
  | _, [] => True
  | lo, t :: ts => lo ≤ t.span.start ∧ P t.span ∧ InOrder P t.span.stop ts

namespace InOrder

variable {P Q : Span → Prop} {ts us : List Token} {t : Token}

theorem weaken (h : InOrder P n ts) (hle : lo ≤ n) : InOrder P lo ts := by
  cases ts with
  | nil => trivial
  | cons t ts => exact ⟨hle.trans h.1, h.2⟩

theorem imp (h : InOrder P lo ts) (hPQ : ∀ s, lo ≤ s.start → P s → Q s) : InOrder Q lo ts := by
  induction ts generalizing lo with
  | nil => trivial
  | cons t ts ih =>
      obtain ⟨hstart, ht, hts⟩ := h
      refine ⟨hstart, hPQ _ hstart ht, ih hts ?_⟩
      intro s hs
      refine hPQ s ?_
      unfold Span.stop at hs
      omega

theorem tail (h : InOrder P lo (t :: ts)) : InOrder P lo ts := by
  apply h.2.2.weaken
  have hstart := h.1
  unfold Span.stop
  omega

theorem sublist (h : InOrder P lo ts) (hus : us.Sublist ts) : InOrder P lo us := by
  induction hus generalizing lo with
  | slnil => trivial
  | cons t _ ih => exact ih h.tail
  | cons_cons t _ ih => exact ⟨h.1, h.2.1, ih h.2.2⟩

theorem place (h : InOrder P lo ts) : ∀ t ∈ ts, P t.span := by
  induction ts generalizing lo with
  | nil =>
      intro t ht
      cases ht
  | cons t ts ih =>
      rw [List.forall_mem_cons]
      exact ⟨h.2.1, ih h.2.2⟩

end InOrder

theorem Tiles.inOrder {ts : List Token} {hi : Nat} (h : Tiles source lo (ts.map .first) hi) :
    InOrder (IsPlace source) lo ts := by
  induction ts generalizing lo with
  | nil => trivial
  | cons t ts ih =>
      have hplace := h.exists_place (.first t) List.mem_cons_self
      obtain ⟨front, back, hsource, hspan⟩ := hplace
      exact ⟨h.1.start_le, ⟨front, _, back, hsource, hspan⟩, ih h.2⟩

namespace Line

variable {l : Line} {rest : List Char}

namespace StandsIn

theorem boundary_endOffset (h : l.StandsIn source rest) : Boundary source l.endOffset :=
  ⟨rest, h.stands.advance⟩

theorem isPlace_terminator (h : l.StandsIn source rest) : IsPlace source l.terminator.span := by
  obtain ⟨front, hsource, hoffset⟩ := h.stands.advance
  have hend : byteLength front = l.endOffset := hoffset
  unfold terminator
  rcases h.ends with ⟨hl, more, rfl⟩ | ⟨hl, rfl⟩
  · rw [hl]
    exact ⟨front, ['\n'], more, by simp [hsource], by rw [hend]; rfl⟩
  · rw [hl]
    exact ⟨front, [], [], by simp [hsource], by rw [hend]; rfl⟩

theorem isPlace_stop (h : l.StandsIn source rest) : IsPlace source l.stop.span := by
  cases hcomment : l.comment? with
  | none =>
      rw [stop, hcomment]
      exact h.isPlace_terminator
  | some text =>
      have hstands := h.stands
      rw [chars_of_comment hcomment, List.append_assoc] at hstands
      obtain ⟨front, hsource, hoffset⟩ := hstands.advance
      rw [stop, hcomment]
      refine ⟨front, [';'], text ++ rest, by simp [hsource], ?_⟩
      rw [hoffset]
      rfl

/-- **The tokens of a line** are in order, at places up to the end of its code. -/
theorem inOrder_tokens (h : l.StandsIn source rest) :
    InOrder (fun s => IsPlace source s ∧ s.stop ≤ l.codeEnd) l.offset l.tokens := by
  obtain ⟨front, hsource, hoffset⟩ := h.stands
  rw [← List.takeWhile_append_dropWhile (p := (· ≠ ';')) (l := l.chars), List.append_assoc,
    ← List.append_assoc] at hsource
  have hcode : Stands (front ++ l.code) l.offset l.code := ⟨front, rfl, hoffset⟩
  obtain ⟨stop, gap, htiles, -⟩ := tiles_tokensFrom hcode
  refine htiles.inOrder.imp ?_
  intro s _ hs
  have hstop := hs.stop_le
  rw [byteLength_append, hoffset] at hstop
  exact ⟨hsource ▸ hs.append _, hstop⟩

/-- A line beside itself. -/
theorem like_placed (h : l.StandsIn source rest) (hsize : byteLength source < 0x100000000) :
    l.Like (.placed hsize) l := by
  constructor
  · rw [List.forall₂_same]
    intro t ht
    exact ⟨rfl, rfl, rfl, (h.inOrder_tokens.place t ht).1⟩
  · exact ⟨⟨rfl, l.endsCode_stop⟩, rfl, h.isPlace_stop⟩

end StandsIn

end Line

/-! ### What is read -/

/-- The place that a cause mentions. -/
def Cause.place? : Cause → Option Span
  | .duplicateSymbol _ previous | .symbol (.duplicate _ previous) => some previous
  | .evaluation e => some e.span
  | _ => none

/-- A diagnostic is at a place of a kind, and so is what it mentions. -/
structure Diagnostic.At (P : Span → Prop) (d : Diagnostic) : Prop where
  span : P d.span
  mentioned : ∀ place ∈ d.cause.place?, P place

/-- A line of a source stands in it. -/
theorem standsIn_of_mem_lines {source : String} {l : Line} (hl : l ∈ lines source) :
    ∃ rest, l.StandsIn source.toList rest := by
  obtain ⟨before, after, hlines⟩ := List.append_of_mem hl
  have hstand := linesAt (stands_start source.toList)
  rw [show linesFrom 0 source.toList = before ++ l :: after from hlines] at hstand
  obtain ⟨rest, h, -⟩ := hstand.split
  exact ⟨rest, h⟩

/-- **What is reported and declared** while a source is read is at places of it. -/
theorem placed_parse {source : String} (hsize : byteLength source.toList < 0x100000000) :
    (∀ d ∈ (parse source).diagnostics, d.At (IsPlace source.toList)) ∧
      ∀ symbol ∈ (parse source).symbols.symbols, IsPlace source.toList symbol.span := by
  have hlines : List.Forall₂ (Line.Like (.placed hsize)) (lines source) (lines source) := by
    rw [List.forall₂_same]
    intro l hl
    obtain ⟨rest, h⟩ := standsIn_of_mem_lines hl
    exact h.like_placed hsize
  have hparse := like_parseLines Scope.like_empty hlines fun l _ t _ =>
    Likeness.placed_knows hsize t.chars
  constructor
  · intro d hd
    have hlike := List.forall₂_same.mp hparse.diagnostics d hd
    refine ⟨hlike.place.2, ?_⟩
    intro place hplace
    obtain ⟨cause, span⟩ := d
    have hcause := hlike.cause
    dsimp only at hcause hplace
    cases hcause with
    | duplicateSymbol _ h =>
        cases hplace
        exact h.2
    | _ => cases hplace
  · intro symbol hsymbol
    exact (List.forall₂_same.mp hparse.symbols symbol hsymbol).place.2

end Chip8.Asm
