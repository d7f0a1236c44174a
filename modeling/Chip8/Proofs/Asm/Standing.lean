import Chip8.Proofs.Asm.Delivery
import Chip8.Proofs.Asm.Lookahead
import Chip8.Proofs.Asm.Operands
import Mathlib.Data.List.DropRight

/-! # Where a lexer stands

A lexer at the start of a line delivers the tokens of this line.

* `Stands source offset cs`: what is left of the source behind `offset` bytes is `cs`. A lexer
  placed there delivers `allTokens offset cs`, and behind every token it is placed at the stop of
  this token (`next_placed`).
* Where blanks are kept, `commentText` finds the text of a comment (`commentText_keeping`).
* `Line.StandsIn` places a line in a source text. The tokens of its code stand in front of a lexer
  at its start (`ahead`), what is skipped from any place in it ends behind its terminator (`edge`),
  and its comment is read up to the terminator (`outcome_comment`). -/

namespace Chip8.Asm

/-! ### Places -/

/-- Behind `offset` bytes of the source comes `cs`. -/
def Stands (source : List Char) (offset : Nat) (cs : List Char) : Prop :=
  ∃ front, source = front ++ cs ∧ byteLength front = offset

variable {source cs : List Char} {offset : Nat}

theorem stands_start (source : List Char) : Stands source 0 source := ⟨[], rfl, rfl⟩

theorem Stands.advance {taken rest : List Char} (h : Stands source offset (taken ++ rest)) :
    Stands source (offset + byteLength taken) rest := by
  obtain ⟨front, hsource, hoffset⟩ := h
  refine ⟨front ++ taken, by rw [hsource, List.append_assoc], ?_⟩
  rw [byteLength_append, hoffset]

theorem Stands.tail {c : Char} (h : Stands source offset (c :: cs)) :
    Stands source (offset + c.utf8Size) cs := by
  have htaken : Stands source offset ([c] ++ cs) := h
  exact htaken.advance

theorem Stands.dropBytes (h : Stands source offset cs) : dropBytes offset source = cs := by
  obtain ⟨front, rfl, rfl⟩ := h
  exact dropBytes_byteLength front cs

/-- A lexer at an offset, with no token given back. -/
def Lexer.placed (source : List Char) (offset : Nat) : Lexer := ⟨⟨source, offset⟩, none, false⟩

/-! ### Tokens one by one -/

/-- The tokens of what is left of a text, and the end of the file. -/
def allTokens (offset : Nat) (cs : List Char) : List Token :=
  tokensFrom 0 offset cs ++ [⟨.endOfFile, [], ⟨offset + byteLength cs, 0⟩⟩]

namespace Lexer

/-- What a lexer reads if no token is given back and blanks are skipped. -/
theorem next_of_stands (h : Stands source offset cs) :
    (placed source offset).next =
      (let start := offset + byteLength (cs.takeWhile isBlank)
      let read := readAt false ⟨source, start⟩
      (read.1, ⟨read.2, none, false⟩)) := by
  have hrest : (⟨source, offset⟩ : Cursor).rest = cs := h.dropBytes
  show (let read := readAt false ((⟨source, offset⟩ : Cursor).takeWhile isBlank).2
    (read.1, (⟨read.2, none, false⟩ : Lexer))) = _
  rw [Cursor.takeWhile, hrest]
  rfl

theorem next_blank {c : Char} (h : Stands source offset (c :: cs)) (hc : isBlank c = true) :
    (placed source offset).next = (placed source (offset + c.utf8Size)).next := by
  rw [next_of_stands h, next_of_stands h.tail, List.takeWhile_cons, if_pos hc, byteLength_cons,
    Nat.add_assoc]

/-- A lexer in front of a token delivers it, and is placed behind it. -/
theorem next_token {c : Char} (h : Stands source offset (c :: cs)) (hc : isBlank c = false) :
    ∃ t rest, (placed source offset).next = (t, placed source t.span.stop) ∧
      allTokens offset (c :: cs) = t :: allTokens t.span.stop rest ∧
      Stands source t.span.stop rest := by
  obtain ⟨kind, taken, rest, hlooks⟩ := Lexeme.looksAhead_scan c cs
  have hscan := hlooks.reads
  have hrest : (⟨source, offset⟩ : Cursor).rest = c :: cs := h.dropBytes
  refine ⟨⟨kind, c :: taken, ⟨offset, byteLength (c :: taken)⟩⟩, rest, ?_, ?_, ?_⟩
  · rw [next_of_stands h, List.takeWhile_cons, if_neg (ne_true_of_eq_false hc)]
    dsimp only [byteLength_nil, Nat.add_zero]
    rw [readAt, hrest]
    dsimp only
    rw [if_neg Bool.false_ne_true, hscan]
    rfl
  · have hlength : offset + byteLength (c :: cs) =
        offset + byteLength (c :: taken) + byteLength rest := by
      rw [hlooks.split, ← List.cons_append, byteLength_append, Nat.add_assoc]
    rw [allTokens, tokensFrom_cons _ hc hlooks.split (hlooks.split ▸ hscan), hlength]
    rfl
  · have hsplit : Stands source offset (c :: taken ++ rest) := by
      rw [List.cons_append, ← hlooks.split]
      exact h
    exact hsplit.advance

/-- A lexer delivers the first token of what is left, and is placed behind it. -/
theorem next_placed (h : Stands source offset cs) :
    ∃ t, (placed source offset).next = (t, placed source t.span.stop) ∧
      (allTokens offset cs = [t] ∨ ∃ rest, allTokens offset cs = t :: allTokens t.span.stop rest ∧
        Stands source t.span.stop rest) := by
  induction cs generalizing offset with
  | nil =>
      refine ⟨⟨.endOfFile, [], ⟨offset, 0⟩⟩, ?_, Or.inl rfl⟩
      have hrest : (⟨source, offset⟩ : Cursor).rest = [] := h.dropBytes
      rw [next_of_stands h]
      dsimp only [List.takeWhile_nil, byteLength_nil, Nat.add_zero]
      rw [readAt, hrest]
      rfl
  | cons c cs ih =>
      cases hc : isBlank c with
      | true =>
          have htokens : allTokens offset (c :: cs) = allTokens (offset + c.utf8Size) cs := by
            rw [allTokens, allTokens, tokensFrom_blank _ hc, byteLength_cons, Nat.add_assoc]
          rw [next_blank h hc, htokens]
          exact ih h.tail
      | false =>
          obtain ⟨t, rest, hnext, hall, hrest⟩ := next_token h hc
          exact ⟨t, hnext, Or.inr ⟨rest, hall, hrest⟩⟩

end Lexer

namespace Reader

variable {ts us : List Token} {stop : Token}

/-- The tokens up to `stop` are delivered one after the other. The induction is on them; it is the
same for all that is said about what stands in front of a lexer. -/
theorem delivered {P : List Token → Lexer → Prop} (h : Stands source offset cs)
    (hts : allTokens offset cs = ts ++ stop :: us)
    (hstop : ∀ l, l.next = (stop, .placed source stop.span.stop) → P [] l)
    (htoken : ∀ t ts l m, l.next = (t, m) → P ts m → P (t :: ts) l) :
    P ts (.placed source offset) := by
  induction ts generalizing offset cs with
  | nil =>
      obtain ⟨t, hnext, hall⟩ := Lexer.next_placed h
      have ht : t = stop := by
        rcases hall with hall | ⟨rest, hall, -⟩
        · exact (List.cons.inj (hall.symm.trans hts)).1
        · exact (List.cons.inj (hall.symm.trans hts)).1
      rw [ht] at hnext
      exact hstop _ hnext
  | cons u ts ih =>
      obtain ⟨t, hnext, hall⟩ := Lexer.next_placed h
      rcases hall with hall | ⟨rest, hall, hrest⟩
      · have hnil := (List.cons.inj (hall.symm.trans hts)).2
        exact absurd hnil.symm (List.append_ne_nil_of_right_ne_nil ts (List.cons_ne_nil stop us))
      · obtain ⟨rfl, hall⟩ := List.cons.inj (hall.symm.trans hts)
        exact htoken t ts _ _ hnext (ih hrest hall)

theorem ahead_placed (h : Stands source offset cs) (hts : allTokens offset cs = ts ++ stop :: us)
    (hcode : ∀ t ∈ ts, t.kind.endsCode = false) :
    Ahead stop (.placed source stop.span.stop) ts (.placed source offset) := by
  refine delivered (P := fun ts l => (∀ t ∈ ts, t.kind.endsCode = false) →
    Ahead stop (.placed source stop.span.stop) ts l) h hts ?_ ?_ hcode
  · exact fun l hnext _ => .done hnext
  · intro t ts l m hnext hrest hcode
    obtain ⟨ht, hts⟩ := List.forall_mem_cons.mp hcode
    exact .token hnext ht (hrest hts)

/-- The rest of a line is skipped up to the token that ends it. -/
theorem recovers_placed (h : Stands source offset cs)
    (hts : allTokens offset cs = ts ++ stop :: us) (hline : ∀ t ∈ ts, t.kind.endsLine = false)
    (hstop : stop.kind.endsLine = true) :
    Recovers (.placed source stop.span.stop) (.placed source offset) := by
  refine delivered (P := fun ts l => (∀ t ∈ ts, t.kind.endsLine = false) →
    Recovers (.placed source stop.span.stop) l) h hts ?_ ?_ hline
  · exact fun l hnext _ => recovers_last hnext hstop
  · intro t ts l m hnext hrest hline
    obtain ⟨ht, hts⟩ := List.forall_mem_cons.mp hline
    exact recovers_next hnext ht (hrest hts)

end Reader

/-! ### The text of a comment -/

/-- Whether a character belongs to a word of a comment. -/
def isText (c : Char) : Bool := c ≠ '\n' ∧ ¬ isBlank c

theorem isBlank_of_isText {c : Char} (hc : isText c = true) : isBlank c = false := by
  unfold isText at hc
  exact Bool.eq_false_iff.mpr (of_decide_eq_true hc).2

/-- The words of a text without the blanks around them. -/
def trimmed (cs : List Char) : List Char := (cs.dropWhile isBlank).rdropWhile isBlank

/-- The stretch from the start of `text`, or else of the first word of `cs`, to the last word. -/
def extended (text : Option Span) (offset : Nat) (cs : List Char) : Option Span :=
  if (trimmed cs).isEmpty then text
  else
    let place : Span :=
      ⟨offset + byteLength (cs.takeWhile isBlank), byteLength (trimmed cs)⟩
    some ((text.getD place).through place)

theorem extended_blanks {blanks : List Char} (hblanks : ∀ c ∈ blanks, isBlank c = true)
    (text : Option Span) (offset : Nat) (rest : List Char) :
    extended text offset (blanks ++ rest) = extended text (offset + byteLength blanks) rest := by
  have htrimmed : trimmed (blanks ++ rest) = trimmed rest := by
    rw [trimmed, trimmed, List.dropWhile_append_of_pos hblanks]
  rw [extended, extended, htrimmed, List.takeWhile_append_of_pos hblanks, byteLength_append,
    Nat.add_assoc]

theorem rdropWhile_append {α : Type} (p : α → Bool) (xs ys : List α) :
    (xs ++ ys).rdropWhile p =
      if (ys.rdropWhile p).isEmpty then xs.rdropWhile p else xs ++ ys.rdropWhile p := by
  unfold List.rdropWhile
  rw [List.reverse_append, List.dropWhile_append, List.isEmpty_reverse]
  split
  · rfl
  · rw [List.reverse_append, List.reverse_reverse]

theorem isEmpty_trimmed (cs : List Char) :
    (trimmed cs).isEmpty = (cs.rdropWhile isBlank).isEmpty := by
  rw [Bool.eq_iff_iff, List.isEmpty_iff, List.isEmpty_iff, trimmed, List.rdropWhile_eq_nil_iff,
    List.rdropWhile_eq_nil_iff]
  constructor
  · intro h
    rw [← List.takeWhile_append_dropWhile (p := isBlank) (l := cs)]
    intro c hc
    rcases List.mem_append.mp hc with hc | hc
    · exact List.mem_takeWhile_imp hc
    · exact h c hc
  · exact fun h c hc => h c ((List.dropWhile_suffix isBlank).subset hc)

/-- A word in front of a text is kept as a whole. -/
theorem trimmed_word {word : List Char} (hword : ∀ c ∈ word, isBlank c = false)
    (hne : word ≠ []) (rest : List Char) :
    trimmed (word ++ rest) =
      if (trimmed rest).isEmpty then word
      else word ++ (rest.takeWhile isBlank ++ trimmed rest) := by
  have hstart : (word ++ rest).dropWhile isBlank = word ++ rest := by
    cases word with
    | nil => exact absurd rfl hne
    | cons c cs =>
        rw [List.cons_append, List.dropWhile_cons,
          if_neg (ne_true_of_eq_false (hword c List.mem_cons_self))]
  have hend : word.rdropWhile isBlank = word :=
    List.rdropWhile_eq_self_iff.mpr fun hl => by
      rw [hword _ (List.getLast_mem hl)]
      exact Bool.false_ne_true
  rw [trimmed, hstart, rdropWhile_append, hend, ← isEmpty_trimmed]
  split
  · rfl
  · rename_i hrest
    have hsplit := rdropWhile_append isBlank (rest.takeWhile isBlank) (rest.dropWhile isBlank)
    rw [List.takeWhile_append_dropWhile, ← trimmed, if_neg hrest] at hsplit
    rw [hsplit]

theorem extended_word {word : List Char} (hword : ∀ c ∈ word, isBlank c = false)
    (hne : word ≠ []) (text : Option Span) (offset : Nat) (rest : List Char) :
    extended text offset (word ++ rest) =
      extended (some ((text.getD ⟨offset, byteLength word⟩).through ⟨offset, byteLength word⟩))
        (offset + byteLength word) rest := by
  have htake : (word ++ rest).takeWhile isBlank = [] := by
    cases word with
    | nil => exact absurd rfl hne
    | cons c cs =>
        rw [List.cons_append, List.takeWhile_cons,
          if_neg (ne_true_of_eq_false (hword c List.mem_cons_self))]
  have hfound : (trimmed (word ++ rest)).isEmpty = false := by
    rw [trimmed_word hword hne]
    cases word with
    | nil => exact absurd rfl hne
    | cons c cs => split <;> rfl
  rw [extended, extended, hfound, if_neg Bool.false_ne_true, htake, trimmed_word hword hne]
  dsimp only [byteLength_nil, Nat.add_zero]
  by_cases hrest : (trimmed rest).isEmpty = true
  · rw [if_pos hrest, if_pos hrest]
  · rw [if_neg hrest, if_neg hrest]
    cases text with
    | none =>
        simp only [Option.getD_none, Option.getD_some, Span.through, Span.stop, byteLength_append,
          Nat.add_assoc]
    | some s =>
        simp only [Option.getD_some, Span.through, Span.stop, byteLength_append, Nat.add_assoc]

/-! ### Comments -/

/-- A lexer at an offset that keeps blanks. -/
def Lexer.keeping (source : List Char) (offset : Nat) : Lexer := ⟨⟨source, offset⟩, none, true⟩

namespace Lexer

theorem next_keeping (h : Stands source offset cs) :
    (keeping source offset).next =
      match cs with
      | [] => (⟨.endOfFile, [], ⟨offset, 0⟩⟩, keeping source offset)
      | c :: cs =>
          let l := Lexeme.scanText c cs
          (⟨l.kind, l.chars, ⟨offset, byteLength l.chars⟩⟩,
            keeping source (offset + byteLength l.chars)) := by
  have hrest : (⟨source, offset⟩ : Cursor).rest = cs := h.dropBytes
  show (let read := readAt true ⟨source, offset⟩
    (read.1, (⟨read.2, none, true⟩ : Lexer))) = _
  rw [readAt, hrest]
  cases cs <;> rfl

end Lexer

theorem takeWhile_append_stop {p : Char → Bool} {rest : List Char}
    (hrest : rest.head?.any p = false) (cs : List Char) :
    (cs ++ rest).takeWhile p = cs.takeWhile p := by
  induction cs with
  | nil =>
      cases rest with
      | nil => rfl
      | cons c rest =>
          have hc : p c = false := hrest
          rw [List.nil_append, List.takeWhile_cons, if_neg (ne_true_of_eq_false hc)]
          rfl
  | cons c cs ih => rw [List.cons_append, List.takeWhile_cons, List.takeWhile_cons, ih]

/-- The first token of a text whose characters belong to one class, as far as they do. -/
theorem Lexer.next_run {c : Char} {rest : List Char} {kind : TokenKind} {p : Char → Bool}
    (h : Stands source offset (c :: cs ++ rest)) (hrest : rest.head?.any p = false)
    (hscan : Lexeme.scanText c (cs ++ rest) = Lexeme.run kind p c (cs ++ rest)) :
    (keeping source offset).next =
      (⟨kind, c :: cs.takeWhile p, ⟨offset, byteLength (c :: cs.takeWhile p)⟩⟩,
        keeping source (offset + byteLength (c :: cs.takeWhile p))) := by
  rw [next_keeping h]
  dsimp only [List.cons_append]
  rw [hscan, Lexeme.run, takeWhile_append_stop hrest]

theorem not_any_of_newline {p : Char → Bool} {rest : List Char}
    (hrest : rest.head?.all (· = '\n') = true) (hp : p '\n' = false) :
    rest.head?.any p = false := by
  cases rest with
  | nil => rfl
  | cons c rest =>
      have hc : c = '\n' := of_decide_eq_true hrest
      rw [hc]
      exact hp

namespace Lexer

/-- A run of blanks or of other characters is taken at a time. -/
theorem commentText_run {c : Char} {rest : List Char} (h : Stands source offset (c :: cs ++ rest))
    (hc : c ≠ '\n') (hrest : rest.head?.all (· = '\n') = true) (text : Option Span) :
    ∃ run later text', c :: cs = run ++ later ∧ run ≠ [] ∧
      (Lexer.keeping source offset).commentText text =
        (Lexer.keeping source (offset + byteLength run)).commentText text' ∧
      extended text offset (c :: cs) = extended text' (offset + byteLength run) later := by
  have hsplit : ∀ p : Char → Bool, c :: cs = c :: cs.takeWhile p ++ cs.dropWhile p := by
    intro p
    rw [List.cons_append, List.takeWhile_append_dropWhile]
  cases hblank : isBlank c with
  | true =>
      have hnext := Lexer.next_run (p := isBlank) h (not_any_of_newline hrest rfl)
        (by rw [Lexeme.scanText, if_neg hc, if_pos hblank])
      have hall : ∀ d ∈ c :: cs.takeWhile isBlank, isBlank d = true :=
        List.forall_mem_cons.mpr ⟨hblank, fun d hd => List.mem_takeWhile_imp hd⟩
      refine ⟨_, _, text, hsplit isBlank, List.cons_ne_nil _ _, ?_, ?_⟩
      · conv_lhs => rw [Lexer.commentText, hnext]
        rfl
      · rw [← extended_blanks hall, ← hsplit]
  | false =>
      have hnext := Lexer.next_run (p := isText) h (not_any_of_newline hrest rfl)
        (by rw [Lexeme.scanText, if_neg hc, hblank]; rfl)
      have hall : ∀ d ∈ c :: cs.takeWhile isText, isBlank d = false :=
        List.forall_mem_cons.mpr
          ⟨hblank, fun d hd => isBlank_of_isText (List.mem_takeWhile_imp hd)⟩
      have hextended := extended_word hall (List.cons_ne_nil _ _) text offset (cs.dropWhile isText)
      rw [← hsplit] at hextended
      refine ⟨_, _, _, hsplit isText, List.cons_ne_nil _ _, ?_, hextended⟩
      conv_lhs => rw [Lexer.commentText, hnext]
      rfl

/-- **The text of a comment is read up to the end of the line**, and the end is given back. The
induction is on the length of the text. -/
theorem commentText_keeping {rest : List Char} {t : Token} {b : Lexer}
    (h : Stands source offset (cs ++ rest)) (hcs : ∀ c ∈ cs, c ≠ '\n')
    (hrest : rest.head?.all (· = '\n') = true)
    (hlast : (Lexer.keeping source (offset + byteLength cs)).next = (t, b))
    (ht : t.kind.endsLine = true) (text : Option Span) :
    (Lexer.keeping source offset).commentText text =
      some (extended text offset cs, b.unread t) := by
  induction hlength : cs.length using Nat.strongRecOn generalizing offset cs text with
  | _ length ih =>
      cases cs with
      | nil =>
          rw [byteLength_nil, Nat.add_zero] at hlast
          rw [Lexer.commentText, hlast]
          exact if_pos ht
      | cons c cs =>
          obtain ⟨run, later, text', hrun, hne, hread, hextended⟩ :=
            commentText_run h (hcs c List.mem_cons_self) hrest text
          rw [hread, hextended]
          rw [hrun] at h hcs hlast hlength
          rw [List.append_assoc] at h
          rw [byteLength_append, ← Nat.add_assoc] at hlast
          have hpos := List.length_pos_of_ne_nil hne
          rw [List.length_append] at hlength
          exact ih later.length (by omega) h.advance
            (fun d hd => hcs d (List.mem_append_right run hd)) hlast text' rfl

end Lexer

/-! ### Lines -/

/-- What stands behind the characters of a line: a newline, or nothing if the file ends. -/
def Line.EndsAt (l : Line) (rest : List Char) : Prop :=
  (l.terminated = true ∧ ∃ more, rest = '\n' :: more) ∨ l.terminated = false ∧ rest = []

/-- A line at its place in a source text, in front of `rest`. -/
structure Line.StandsIn (l : Line) (source rest : List Char) : Prop where
  stands : Stands source l.offset (l.chars ++ rest)
  unbroken : ∀ c ∈ l.chars, c ≠ '\n'
  ends : l.EndsAt rest

theorem allTokens_append (offset : Nat) (cs : List Char) {rest : List Char}
    (hrest : Breaks rest) :
    allTokens offset (cs ++ rest) =
      tokensFrom 0 offset cs ++ allTokens (offset + byteLength cs) rest := by
  rw [allTokens, allTokens, tokensFrom_append offset cs hrest, byteLength_append,
    List.append_assoc, Nat.add_assoc]

namespace Line

variable {l : Line} {rest : List Char}

theorem EndsAt.newline (h : l.EndsAt rest) : rest.head?.all (· = '\n') = true := by
  rcases h with ⟨-, more, rfl⟩ | ⟨-, rfl⟩ <;> rfl

theorem EndsAt.breaks (h : l.EndsAt rest) : Breaks rest := by
  rcases h with ⟨-, more, rfl⟩ | ⟨-, rfl⟩ <;> rfl

/-- Behind a line comes its terminator. -/
theorem EndsAt.allTokens (h : l.EndsAt rest) :
    ∃ us, Asm.allTokens l.endOffset rest = l.terminator :: us := by
  rcases h with ⟨hl, more, rfl⟩ | ⟨hl, rfl⟩
  · refine ⟨Asm.allTokens (l.endOffset + 1) more, ?_⟩
    have hfirst : tokensFrom 0 l.endOffset ('\n' :: more) =
        ⟨.newline, ['\n'], ⟨l.endOffset, 1⟩⟩ :: tokensFrom 0 (l.endOffset + 1) more := rfl
    have hlength : l.endOffset + byteLength ('\n' :: more) =
        l.endOffset + 1 + byteLength more := by
      rw [byteLength_cons, ← Nat.add_assoc]
      rfl
    rw [Asm.allTokens, hfirst, hlength, terminator, hl]
    rfl
  · refine ⟨[], ?_⟩
    rw [terminator, hl]
    rfl

theorem endsLine_terminator (l : Line) : l.terminator.kind.endsLine = true := by
  unfold terminator
  split <;> rfl

/-- A line with a comment is code, the mark and the text of the comment. -/
theorem chars_of_comment {text : List Char} (h : l.comment? = some text) :
    l.chars = l.code ++ ';' :: text := by
  unfold comment? at h
  split at h
  · cases h
  · rename_i c cs hdrop
    cases h
    have hmark : c = ';' := by
      have hhead := List.head?_dropWhile_not (fun c => decide (c ≠ ';')) l.chars
      rw [hdrop] at hhead
      simpa using hhead
    subst hmark
    rw [code, ← hdrop, List.takeWhile_append_dropWhile]

theorem code_of_no_comment (h : l.comment? = none) : l.code = l.chars := by
  unfold comment? at h
  split at h
  · rename_i hdrop
    have hsplit := List.takeWhile_append_dropWhile (p := (· ≠ ';')) (l := l.chars)
    rw [hdrop, List.append_nil] at hsplit
    exact hsplit
  · cases h

theorem endsCode_of_mem_code {t : Token} (h : ∀ c ∈ l.chars, c ≠ '\n') (ht : t ∈ l.tokens) :
    t.kind.endsCode = false := by
  obtain ⟨c, hc, ds, hkind, -⟩ := scan_of_mem_tokensFrom ht
  rw [hkind, Bool.eq_false_iff]
  intro hends
  rcases Lexeme.char_of_endsCode_scan c ds hends with hc' | ⟨hc', -⟩
  · exact h c ((List.takeWhile_prefix _).subset hc) hc'
  · exact of_decide_eq_true (List.mem_takeWhile_imp (p := (· ≠ ';')) hc) hc'

/-- The characters of a text without newlines belong to tokens that end no line. -/
theorem endsLine_of_mem_tokensFrom {offset : Nat} {cs : List Char} {t : Token}
    (h : ∀ c ∈ cs, c ≠ '\n') (ht : t ∈ tokensFrom 0 offset cs) : t.kind.endsLine = false := by
  obtain ⟨c, hc, ds, hkind, -⟩ := scan_of_mem_tokensFrom ht
  rw [hkind]
  cases hcode : (Lexeme.scan c ds).kind.endsCode with
  | false => exact Reader.endsLine_of_endsCode hcode
  | true =>
      rcases Lexeme.char_of_endsCode_scan c ds hcode with hc' | ⟨-, hmark⟩
      · exact absurd hc' (h c hc)
      · rw [hmark]
        rfl

namespace StandsIn

variable {source : List Char}

/-- The token that ends the code comes behind its tokens. -/
theorem allTokens_code (h : l.StandsIn source rest) :
    ∃ us, Asm.allTokens l.offset (l.chars ++ rest) = l.tokens ++ l.stop :: us := by
  cases hcomment : l.comment? with
  | none =>
      obtain ⟨us, hus⟩ := h.ends.allTokens
      refine ⟨us, ?_⟩
      have hcode := code_of_no_comment hcomment
      rw [allTokens_append _ _ h.ends.breaks, ← endOffset, hus, Line.tokens, hcode, stop, hcomment]
  | some text =>
      refine ⟨Asm.allTokens (l.codeEnd + 1) (text ++ rest), ?_⟩
      have hfirst : tokensFrom 0 l.codeEnd (';' :: (text ++ rest)) =
          ⟨.commentStart, [';'], ⟨l.codeEnd, 1⟩⟩ ::
            tokensFrom 0 (l.codeEnd + 1) (text ++ rest) := rfl
      have hlength : l.codeEnd + byteLength (';' :: (text ++ rest)) =
          l.codeEnd + 1 + byteLength (text ++ rest) := by
        rw [byteLength_cons, ← Nat.add_assoc]
        rfl
      rw [chars_of_comment hcomment, List.append_assoc, List.cons_append,
        allTokens_append l.offset l.code (breaks_cons rfl _), ← codeEnd, Asm.allTokens, hfirst,
        hlength, stop, hcomment]
      rfl

/-- The place behind the terminator of a line. -/
theorem ahead (h : l.StandsIn source rest) :
    Reader.Ahead l.stop (.placed source l.stop.span.stop) l.tokens (.placed source l.offset) := by
  obtain ⟨us, hus⟩ := h.allTokens_code
  exact Reader.ahead_placed h.stands hus fun t ht => endsCode_of_mem_code h.unbroken ht

theorem stands_comment (h : l.StandsIn source rest) {text : List Char}
    (hcomment : l.comment? = some text) : Stands source (l.codeEnd + 1) (text ++ rest) := by
  have hstands := h.stands
  rw [chars_of_comment hcomment, List.append_assoc] at hstands
  exact hstands.advance.tail

theorem endOffset_comment {text : List Char} (hcomment : l.comment? = some text) :
    l.endOffset = l.codeEnd + 1 + byteLength text := by
  rw [endOffset, chars_of_comment hcomment, byteLength_append, byteLength_cons, codeEnd]
  have hmark : (';' : Char).utf8Size = 1 := rfl
  omega

theorem edge (h : l.StandsIn source rest) :
    Reader.Edge (.placed source l.terminator.span.stop) l.stop
      (.placed source l.stop.span.stop) := by
  refine ⟨Or.inr l.endsCode_stop, rfl, fun hends => ?_, fun hends => ?_⟩
  · cases hcomment : l.comment? with
    | none => rw [stop, hcomment]
    | some text =>
        rw [stop, hcomment] at hends
        cases hends
  · cases hcomment : l.comment? with
    | none =>
        rw [stop, hcomment, endsLine_terminator] at hends
        cases hends
    | some text =>
        obtain ⟨us, hus⟩ := h.ends.allTokens
        rw [endOffset_comment hcomment] at hus
        have hall := allTokens_append (l.codeEnd + 1) text h.ends.breaks
        rw [hus] at hall
        have hrecovers := Reader.recovers_placed (h.stands_comment hcomment) hall
          (fun t ht => endsLine_of_mem_tokensFrom (fun c hc => h.unbroken c ?_) ht)
          l.endsLine_terminator
        · rw [stop, hcomment]
          exact hrecovers
        · rw [chars_of_comment hcomment]
          exact List.mem_append_right _ (List.mem_cons_of_mem _ hc)

end StandsIn

end Line

namespace Reader

variable {l : Line} {rest : List Char}

theorem next_terminator (h : l.EndsAt rest) (hstands : Stands source l.endOffset rest) :
    (Lexer.keeping source l.endOffset).next =
      (l.terminator, .keeping source l.terminator.span.stop) := by
  rw [Lexer.next_keeping hstands, Line.terminator]
  rcases h with ⟨hl, more, rfl⟩ | ⟨hl, rfl⟩
  · rw [hl]
    rfl
  · rw [hl]
    rfl

theorem extended_none (offset : Nat) (cs : List Char) :
    extended none offset cs =
      if (trimmed cs).isEmpty then none
      else some ⟨offset + byteLength (cs.takeWhile isBlank), byteLength (trimmed cs)⟩ := by
  rw [extended]
  split
  · rfl
  · dsimp only
    rw [Option.getD_none, Span.through, Span.stop, Nat.add_sub_cancel_left]

theorem commentSpan?_eq {text : List Char} (h : l.comment? = some text) :
    l.commentSpan? =
      some ((extended none (l.codeEnd + 1) text).getD ⟨l.codeEnd + 1, 0⟩) := by
  rw [Line.commentSpan?, h, extended_none]
  show some (if (trimmed text).isEmpty then _ else _) = _
  by_cases htrimmed : (trimmed text).isEmpty = true
  · rw [if_pos htrimmed, if_pos htrimmed]
    rfl
  · rw [if_neg htrimmed, if_neg htrimmed]
    rfl

theorem outcome_keepBlanks (keep : Bool) (m : Lexer) :
    (modify (Lexer.keepBlanks · keep) : TokenReading PUnit).outcome m =
      some (.ok (), m.keepBlanks keep) := rfl

/-- **A comment is read up to the terminator of its line**, or there is none. -/
theorem outcome_comment (h : l.StandsIn source rest) {m : Lexer}
    (hahead : Ahead l.stop (.placed source l.stop.span.stop) [] m) :
    ∃ m', comment.outcome m = some (.ok l.commentSpan?, m') ∧
      m'.next = (l.terminator, .placed source l.terminator.span.stop) := by
  cases hahead with
  | done hnext =>
      rw [comment, outcome_next_bind hnext]
      cases hcomment : l.comment? with
      | none =>
          have hstop : l.stop = l.terminator := by rw [Line.stop, hcomment]
          have hkind : l.terminator.kind ≠ .commentStart := by
            unfold Line.terminator
            split <;> exact TokenKind.noConfusion
          rw [hstop, if_neg hkind, Line.commentSpan?, hcomment]
          exact ⟨_, rfl, rfl⟩
      | some text =>
          have hstop : l.stop = ⟨.commentStart, [';'], ⟨l.codeEnd, 1⟩⟩ := by
            rw [Line.stop, hcomment]
          have hoffset := Line.StandsIn.endOffset_comment hcomment
          have hstands := h.stands_comment hcomment
          have hrest : Stands source l.endOffset rest := by
            rw [hoffset]
            exact hstands.advance
          have hlast := next_terminator h.ends hrest
          rw [hoffset] at hlast
          have hkept := Lexer.commentText_keeping hstands
            (fun c hc => h.unbroken c (by
              rw [Line.chars_of_comment hcomment]
              exact List.mem_append_right _ (List.mem_cons_of_mem _ hc)))
            h.ends.newline hlast l.endsLine_terminator none
          have htext := outcome_ofLexer (·.commentText none) (.keeping source (l.codeEnd + 1))
          rw [hkept] at htext
          refine ⟨(Lexer.placed source l.terminator.span.stop).unread l.terminator, ?_, rfl⟩
          rw [hstop, if_pos rfl, Reading.outcome_bind_ok (outcome_keepBlanks true _)]
          dsimp only [Span.stop]
          rw [show (Lexer.placed source (l.codeEnd + 1)).keepBlanks true =
            .keeping source (l.codeEnd + 1) from rfl, Reading.outcome_bind_ok htext,
            Reading.outcome_bind_ok (outcome_keepBlanks false _), commentSpan?_eq hcomment]
          rfl

end Reader

end Chip8.Asm
