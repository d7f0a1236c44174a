import Chip8.Proofs.Asm.Printing
import Chip8.Proofs.Asm.Spacing
import Chip8.Proofs.Asm.Unambiguous

/-! # Tokens spelled in another way

Source texts in which some names are replaced by numbers in parentheses or by registers.

* **Texts.** `respelled` is a source text with the code of every line spelled anew, token by token;
  blanks and comments stay. `Token.Spelled` says what may be written for a token: its own
  characters, or for a name something that neither runs together with the tokens around it nor
  breaks them.
* **Induction.** `scan_induction` goes through a text from token to token. What is behind a token may
  be spelled anew, since a token looks no further ahead than `SameBehind` says.
* **Tokens.** The tokens of the new text are those of the spellings, one behind the other
  (`faces_respellFrom`), in every line (`lines_respelled`). -/

namespace Chip8.Asm

variable {spell : Token → List Char}

/-! ### Texts -/

/-- A number in parentheses. -/
def enclosedDigits (k : Nat) : List Char := '(' :: (Numeral.digits 10 k ++ [')'])

/-- What may be written for a token. -/
inductive Token.Spelled (t : Token) : List Char → Prop
  | kept : Spelled t t.chars
  | number (k : Nat) (name : t.kind = .name) : Spelled t (enclosedDigits k)
  | register {c d : Char} {r : Nat} (name : t.kind = .name) (mark : c = 'v' ∨ c = 'V')
      (digit : Numeral.digit? 16 d = some r) : Spelled t [c, d]

/-- A text that starts at an offset, every token of it spelled as `spell` says; the first `skip`
characters belong to a token read before. -/
def respellFrom (spell : Token → List Char) (skip offset : Nat) : List Char → List Char
  | [] => []
  | c :: cs =>
      match skip with
      | skip + 1 => respellFrom spell skip (offset + c.utf8Size) cs
      | 0 =>
          if isBlank c then c :: respellFrom spell 0 (offset + c.utf8Size) cs
          else
            let l := Lexeme.scan c cs
            spell ⟨l.kind, l.chars, ⟨offset, byteLength l.chars⟩⟩ ++
              respellFrom spell (l.chars.length - 1) (offset + c.utf8Size) cs

/-- The text of a line with its code spelled anew. -/
def Line.respelled (spell : Token → List Char) (l : Line) : List Char :=
  respellFrom spell 0 l.offset l.code ++ l.chars.dropWhile (· ≠ ';')

/-- A source text with the code of every line spelled anew. -/
def respelled (spell : Token → List Char) (source : String) : String :=
  String.ofList (['\n'].intercalate ((lines source).map (Line.respelled spell)))

/-! ### From token to token -/

/-- Induction on a text: blanks are skipped, and a token is taken at once. -/
theorem scan_induction {motive : Nat → List Char → Prop} (nil : ∀ offset, motive offset [])
    (blank : ∀ offset c cs, isBlank c = true → motive (offset + c.utf8Size) cs →
      motive offset (c :: cs))
    (token : ∀ offset c cs kind taken rest, isBlank c = false →
      LooksAhead c (Lexeme.scan c) cs kind taken rest →
      motive (offset + byteLength (c :: taken)) rest → motive offset (c :: cs))
    (offset : Nat) (cs : List Char) : motive offset cs := by
  induction hlength : cs.length using Nat.strongRecOn generalizing offset cs with
  | _ length ih =>
      cases cs with
      | nil => exact nil offset
      | cons c cs =>
          cases hc : isBlank c with
          | true =>
              exact blank offset c cs hc
                (ih cs.length (by rw [← hlength]; exact Nat.lt_succ_self _) _ cs rfl)
          | false =>
              obtain ⟨kind, taken, rest, h⟩ := Lexeme.looksAhead_scan c cs
              refine token offset c cs kind taken rest hc h (ih rest.length ?_ _ rest rfl)
              rw [← hlength, h.split, List.length_cons, List.length_append]
              omega

theorem respellFrom_skip (offset : Nat) (taken rest : List Char) :
    respellFrom spell taken.length offset (taken ++ rest) =
      respellFrom spell 0 (offset + byteLength taken) rest := by
  induction taken generalizing offset with
  | nil => rfl
  | cons c cs ih =>
      rw [List.length_cons, List.cons_append, respellFrom, ih, byteLength_cons, Nat.add_assoc]

theorem respellFrom_blank {c : Char} (offset : Nat) (hc : isBlank c = true) (cs : List Char) :
    respellFrom spell 0 offset (c :: cs) = c :: respellFrom spell 0 (offset + c.utf8Size) cs := by
  rw [respellFrom]
  exact if_pos hc

section Step

variable {c : Char} {cs taken rest rest' : List Char} {kind : TokenKind}
  (h : LooksAhead c (Lexeme.scan c) cs kind taken rest)

include h

theorem respellFrom_cons (offset : Nat) (hc : isBlank c = false) :
    respellFrom spell 0 offset (c :: cs) =
      spell ⟨kind, c :: taken, ⟨offset, byteLength (c :: taken)⟩⟩ ++
        respellFrom spell 0 (offset + byteLength (c :: taken)) rest := by
  rw [respellFrom]
  dsimp only
  rw [hc, h.reads, h.split]
  simp only [Bool.false_eq_true, if_false, List.length_cons, Nat.add_sub_cancel]
  rw [respellFrom_skip, byteLength_cons, Nat.add_assoc]

theorem tokensFrom_step (offset : Nat) (hc : isBlank c = false) :
    tokensFrom 0 offset (c :: cs) = ⟨kind, c :: taken, ⟨offset, byteLength (c :: taken)⟩⟩ ::
      tokensFrom 0 (offset + byteLength (c :: taken)) rest :=
  tokensFrom_cons offset hc h.split (h.stays (.refl rest))

/-- A token that starts with a part of a name is a word, so that no other word starts behind it. -/
theorem delimited_of_isNamePart (hc : isNamePart c = true) :
    taken = wordOf cs ∧ Delimited rest := by
  obtain ⟨kind', hscan⟩ := Lexeme.scan_word hc cs
  rw [h.reads, Lexeme.run] at hscan
  cases hscan
  exact ⟨rfl, delimited_dropWhile cs⟩

theorem wordOf_cons (hrest : SameBehind rest rest') :
    wordOf (c :: (taken ++ rest')) = wordOf (c :: cs) := by
  rw [wordOf, wordOf, List.takeWhile_cons, List.takeWhile_cons]
  by_cases hc : isNamePart c = true
  · obtain ⟨htaken, hdelimited⟩ := delimited_of_isNamePart h hc
    have hword : taken.all isNamePart = true := htaken ▸ all_wordOf cs
    rw [if_pos hc, if_pos hc, (takeWhile_of_delimited hword (hrest.delimited hdelimited)).1,
      htaken]
  · rw [if_neg hc, if_neg hc]

/-- A name starts like one. -/
theorem isNameStart_of_kind (hkind : kind = .name) : isNameStart c = true := by
  have hscan : (Lexeme.scan c cs).kind = .name := by rw [h.reads, hkind]
  have hvalid := Lexeme.isIdentifier_of_scan hscan
  rw [h.reads, isIdentifier, Bool.and_eq_true] at hvalid
  exact hvalid.1

theorem faces_kept (hc : isBlank c = false) (hrest : SameBehind rest rest') :
    faces (c :: (taken ++ rest')) = (kind, c :: taken) :: faces rest' :=
  faces_cons taken hc (h.stays hrest) rfl

end Step

/-! ### Spellings -/

theorem faces_enclosedDigits (k : Nat) (rest : List Char) :
    faces (enclosedDigits k ++ rest) = (.parenOpen, ['(']) ::
      (.number .decimal, Numeral.digits 10 k) :: (.parenClose, [')']) :: faces rest := by
  obtain ⟨c, cs, hdigits, hc, hcs⟩ := exists_digits k
  have hclose : faces (')' :: rest) = (.parenClose, [')']) :: faces rest :=
    faces_cons [] rfl rfl rfl
  have hnumber : faces (c :: (cs ++ ')' :: rest)) =
      (.number .decimal, c :: cs) :: faces (')' :: rest) :=
    faces_decimal hc hcs (delimited_cons rfl rest)
  have htext : enclosedDigits k ++ rest = '(' :: (c :: (cs ++ ')' :: rest)) := by
    rw [enclosedDigits, hdigits]
    simp
  rw [htext, hdigits, ← hclose, ← hnumber]
  exact faces_cons [] rfl rfl rfl

theorem faces_enclosed (k : Nat) : faces (enclosedDigits k) =
    [(.parenOpen, ['(']), (.number .decimal, Numeral.digits 10 k), (.parenClose, [')'])] := by
  have hfaces := faces_enclosedDigits k []
  rwa [List.append_nil] at hfaces

theorem faces_registerChars {c d : Char} {r : Nat} (hc : c = 'v' ∨ c = 'V')
    (hd : Numeral.digit? 16 d = some r) {rest : List Char} (hrest : Delimited rest) :
    faces (c :: d :: rest) = (.register r.toUInt8, [c, d]) :: faces rest := by
  have hread : Lexeme.scan c (d :: rest) = Lexeme.registerOrName c (d :: rest) := by
    rcases hc with rfl | rfl <;> rfl
  have hblank : isBlank c = false := by
    rcases hc with rfl | rfl <;> rfl
  refine faces_cons [d] hblank ?_ rfl
  rw [hread, Lexeme.registerOrName, hd]
  dsimp only
  rw [if_neg (by rw [hrest]; decide)]

/-- What may stand for a text in which some tokens are spelled anew. -/
theorem sameBehind_respellFrom (offset : Nat) (cs : List Char)
    (hspell : ∀ t ∈ tokensFrom 0 offset cs, t.Spelled (spell t)) :
    SameBehind cs (respellFrom spell 0 offset cs) := by
  induction offset, cs using scan_induction with
  | nil offset => exact .refl []
  | blank offset c cs hc _ =>
      rw [respellFrom_blank offset hc]
      exact .breaks (breaks_of_isBlank hc)
  | token offset c cs kind taken rest hc h ih =>
      rw [tokensFrom_step h offset hc, List.forall_mem_cons] at hspell
      rw [respellFrom_cons h offset hc]
      have hrest := ih hspell.2
      generalize spell _ = w at hspell
      cases hspell.1 with
      | kept => exact .word rfl (wordOf_cons h hrest)
      | number k _ => exact .breaks rfl
      | register hname hmark hdigit =>
          refine .name (isNameStart_of_kind h hname) ?_
          rcases hmark with rfl | rfl <;> rfl

/-- **The tokens of the new text** are those of the spellings. -/
theorem faces_respellFrom (offset : Nat) (cs : List Char)
    (hspell : ∀ t ∈ tokensFrom 0 offset cs, t.Spelled (spell t)) :
    faces (respellFrom spell 0 offset cs) =
      (tokensFrom 0 offset cs).flatMap fun t => faces (spell t) := by
  induction offset, cs using scan_induction with
  | nil offset => rfl
  | blank offset c cs hc ih =>
      rw [tokensFrom_blank offset hc] at hspell ⊢
      rw [respellFrom_blank offset hc, faces_blank hc]
      exact ih hspell
  | token offset c cs kind taken rest hc h ih =>
      rw [tokensFrom_step h offset hc, List.forall_mem_cons] at hspell
      rw [tokensFrom_step h offset hc, respellFrom_cons h offset hc, List.flatMap_cons,
        ← ih hspell.2]
      have hrest := sameBehind_respellFrom _ rest hspell.2
      generalize respellFrom spell 0 _ rest = rest' at hrest
      generalize spell _ = w at hspell ⊢
      cases hspell.1 with
      | kept =>
          have hself := faces_kept h hc (.breaks rfl : SameBehind rest [])
          rw [List.append_nil] at hself
          rw [List.cons_append, faces_kept h hc hrest, hself]
          rfl
      | number k _ =>
          rw [faces_enclosedDigits, faces_enclosed]
          rfl
      | register hname hmark hdigit =>
          have hstart := isNamePart_of_isNameStart (isNameStart_of_kind h hname)
          have hdelimited := hrest.delimited (delimited_of_isNamePart h hstart).2
          rw [List.cons_append, List.cons_append, List.nil_append,
            faces_registerChars hmark hdigit hdelimited,
            faces_registerChars hmark hdigit delimited_nil]
          rfl

/-- A token is read from its own characters as well. -/
theorem faces_chars_of_mem_tokensFrom (offset : Nat) (cs : List Char) :
    ∀ t ∈ tokensFrom 0 offset cs, faces t.chars = [t.face] := by
  induction offset, cs using scan_induction with
  | nil offset => exact fun t ht => absurd ht List.not_mem_nil
  | blank offset c cs hc ih =>
      rw [tokensFrom_blank offset hc]
      exact ih
  | token offset c cs kind taken rest hc h ih =>
      rw [tokensFrom_step h offset hc, List.forall_mem_cons]
      refine ⟨?_, ih⟩
      have hself := faces_kept h hc (.breaks rfl : SameBehind rest [])
      rw [List.append_nil] at hself
      exact hself

/-! ### Lines -/

/-- What a text and all spellings consist of, the new text consists of. -/
theorem forall_mem_respellFrom {p : Char → Prop} (hopen : p '(') (hclose : p ')')
    (hpart : ∀ c, isNamePart c = true → p c) (offset : Nat) (cs : List Char)
    (hcs : ∀ c ∈ cs, p c) (hspell : ∀ t ∈ tokensFrom 0 offset cs, t.Spelled (spell t)) :
    ∀ c ∈ respellFrom spell 0 offset cs, p c := by
  induction offset, cs using scan_induction with
  | nil offset => exact hcs
  | blank offset c cs hc ih =>
      rw [tokensFrom_blank offset hc] at hspell
      rw [List.forall_mem_cons] at hcs
      rw [respellFrom_blank offset hc, List.forall_mem_cons]
      exact ⟨hcs.1, ih hcs.2 hspell⟩
  | token offset c cs kind taken rest hc h ih =>
      rw [tokensFrom_step h offset hc, List.forall_mem_cons] at hspell
      rw [h.split, ← List.cons_append, List.forall_mem_append] at hcs
      rw [respellFrom_cons h offset hc, List.forall_mem_append]
      refine ⟨?_, ih hcs.2 hspell.2⟩
      generalize spell _ = w at hspell ⊢
      cases hspell.1 with
      | kept => exact hcs.1
      | number k _ =>
          obtain ⟨d, ds, hdigits, hd, hds⟩ := exists_digits k
          rw [enclosedDigits, hdigits, List.forall_mem_cons, List.forall_mem_append,
            List.forall_mem_cons, List.forall_mem_singleton]
          exact ⟨hopen, ⟨hpart d (isNamePart_of_isDigit hd), fun e he =>
            hpart e (isNamePart_of_isDigit (List.all_eq_true.mp hds e he))⟩, hclose⟩
      | @register c d r _ hmark hdigit =>
          rw [List.forall_mem_cons, List.forall_mem_singleton]
          refine ⟨hpart c ?_, hpart d (isNamePart_of_digit? hdigit)⟩
          rcases hmark with rfl | rfl <;> rfl

theorem ne_newline_of_mem_linesFrom {offset : Nat} {cs : List Char} :
    ∀ l ∈ linesFrom offset cs, ∀ c ∈ l.chars, c ≠ '\n' := by
  induction cs generalizing offset with
  | nil => simp [linesFrom]
  | cons c cs ih =>
      rw [linesFrom]
      split
      · rw [List.forall_mem_cons]
        exact ⟨fun c hc => absurd hc List.not_mem_nil, ih⟩
      · rename_i hc
        split
        · rename_i l ls hls
          have hlater := @ih (offset + c.utf8Size)
          rw [hls, List.forall_mem_cons] at hlater
          rw [List.forall_mem_cons, List.forall_mem_cons]
          exact ⟨⟨hc, hlater.1⟩, hlater.2⟩
        · exact fun l hl => absurd hl List.not_mem_nil

/-- Lines that are put together are the lines of the text. -/
theorem chars_linesFrom_intercalate {ms : List (List Char)} (hne : ms ≠ [])
    (hms : ∀ m ∈ ms, ∀ c ∈ m, c ≠ '\n') (offset : Nat) :
    (linesFrom offset (['\n'].intercalate ms)).map Line.chars = ms := by
  induction ms generalizing offset with
  | nil => exact absurd rfl hne
  | cons m ms ih =>
      rw [List.forall_mem_cons] at hms
      cases ms with
      | nil => rw [List.intercalate_singleton, linesFrom_last hms.1, List.map_singleton]
      | cons m' ms =>
          rw [List.intercalate_cons_cons, List.append_assoc, List.singleton_append,
            linesFrom_newline hms.1, List.map_cons, ih (List.cons_ne_nil _ _) hms.2]

/-- The lines of a text, put together, are the text. -/
theorem intercalate_chars_linesFrom (offset : Nat) (cs : List Char) :
    ['\n'].intercalate ((linesFrom offset cs).map Line.chars) = cs := by
  induction cs generalizing offset with
  | nil => rfl
  | cons c cs ih =>
      have hlater := ih (offset + c.utf8Size)
      rw [linesFrom]
      cases hls : linesFrom (offset + c.utf8Size) cs with
      | nil => exact absurd hls (linesFrom_ne_nil _ _)
      | cons l ls =>
          rw [hls, List.map_cons] at hlater
          split
          · rename_i hc
            rw [List.map_cons, List.map_cons, List.intercalate_cons_cons, hlater, hc]
            rfl
          · rw [List.map_cons]
            cases ls with
            | nil =>
                rw [List.map_nil, List.intercalate_singleton] at hlater ⊢
                rw [hlater]
            | cons l' ls =>
                rw [List.map_cons, List.intercalate_cons_cons] at hlater ⊢
                rw [List.cons_append, List.cons_append, hlater]

/-- A source text in which every token is spelled with its own characters is the same text. -/
theorem respelled_chars (source : String) : respelled Token.chars source = source := by
  have hcode : ∀ (offset : Nat) (cs : List Char),
      respellFrom Token.chars 0 offset cs = cs := by
    intro offset cs
    induction offset, cs using scan_induction with
    | nil offset => rfl
    | blank offset c cs hc ih => rw [respellFrom_blank offset hc, ih]
    | token offset c cs kind taken rest hc h ih =>
        rw [respellFrom_cons h offset hc, ih, h.split, List.cons_append]
  have hline : ∀ l : Line, l.respelled Token.chars = l.chars := by
    intro l
    rw [Line.respelled, hcode]
    exact List.takeWhile_append_dropWhile
  rw [respelled, funext hline, lines, intercalate_chars_linesFrom, String.ofList_toList]

namespace Line

variable {l l' : Line} (hspell : ∀ t ∈ l.tokens, t.Spelled (spell t))

include hspell

theorem ne_newline_of_mem_respelled (hl : ∀ c ∈ l.chars, c ≠ '\n') :
    ∀ c ∈ l.respelled spell, c ≠ '\n' := by
  have hname : ∀ c : Char, isNamePart c = true → c ≠ '\n' := by
    rintro c hc rfl
    cases hc
  rw [respelled, List.forall_mem_append]
  refine ⟨forall_mem_respellFrom (by decide) (by decide) hname _ _ (fun c hc => ?_) hspell,
    fun c hc => ?_⟩
  · exact hl c ((List.takeWhile_sublist _).subset hc)
  · exact hl c ((List.dropWhile_sublist _).subset hc)

/-- The comment starts where it did. -/
theorem code_of_respelled (h : l'.chars = l.respelled spell) :
    l'.code = respellFrom spell 0 l.offset l.code := by
  have hname : ∀ c : Char, isNamePart c = true → c ≠ ';' := by
    rintro c hc rfl
    cases hc
  have hcode : ∀ c ∈ l.code, c ≠ ';' := fun c hc =>
    of_decide_eq_true (List.mem_takeWhile_imp (p := fun d => decide (d ≠ ';')) hc)
  have hnew := forall_mem_respellFrom (p := fun c => c ≠ ';') (by decide) (by decide) hname
    l.offset l.code hcode hspell
  have hstop : (l.chars.dropWhile (· ≠ ';')).head?.any (· ≠ ';') = false := by
    have hhead := List.head?_dropWhile_not (· ≠ ';') l.chars
    cases hrest : (l.chars.dropWhile (· ≠ ';')).head? with
    | none => rfl
    | some c =>
        rw [hrest] at hhead
        simpa using hhead
  rw [code, h, respelled]
  exact (takeWhile_of_stop (List.all_eq_true.mpr fun c hc => decide_eq_true (hnew c hc)) hstop).1

end Line

theorem faces_of_respelled {l l' : Line} (hspell : ∀ t ∈ l.tokens, t.Spelled (spell t))
    (h : l'.chars = l.respelled spell) :
    l'.tokens.map Token.face = l.tokens.flatMap fun t => faces (spell t) := by
  rw [Line.tokens, faces_tokensFrom, l.code_of_respelled hspell h, faces_respellFrom _ _ hspell]
  rfl

/-- **The lines of the new text** have the tokens of the spellings. -/
theorem lines_respelled {source : String}
    (hspell : ∀ l ∈ lines source, ∀ t ∈ l.tokens, t.Spelled (spell t)) :
    List.Forall₂ (fun l l' => l'.tokens.map Token.face = l.tokens.flatMap fun t => faces (spell t))
      (lines source) (lines (respelled spell source)) := by
  have hchars : (lines (respelled spell source)).map Line.chars =
      (lines source).map (Line.respelled spell) := by
    rw [lines, respelled, String.toList_ofList]
    refine chars_linesFrom_intercalate ?_ ?_ 0
    · rw [ne_eq, List.map_eq_nil_iff]
      exact linesFrom_ne_nil 0 source.toList
    · rw [List.forall_mem_map]
      exact fun l hl => Line.ne_newline_of_mem_respelled (hspell l hl)
        (ne_newline_of_mem_linesFrom l hl)
  have hlines : List.Forall₂ (fun l l' : Line => l ∈ lines source ∧ l'.chars = l.respelled spell)
      (lines source) (lines (respelled spell source)) := by
    rw [List.forall₂_and_left]
    refine ⟨fun l hl => hl, ?_⟩
    rw [← List.forall₂_map_right_iff (R := fun (l : Line) m => m = l.respelled spell), hchars,
      List.forall₂_map_right_iff, List.forall₂_same]
    exact fun l _ => rfl
  exact hlines.imp fun l l' h => faces_of_respelled (hspell l h.1) h.2

end Chip8.Asm
