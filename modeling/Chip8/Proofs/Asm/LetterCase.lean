import Chip8.Proofs.Asm.AlikePrograms
import Chip8.Proofs.Asm.Lookahead

/-! # Letter case

Letter case matters in the names that a program declares and nowhere else.

* **Tokens.** Raising a text to upper case raises the words of its tokens and keeps their kinds and
  places (`tokensFrom_upper`), and so for lines.
* **Names.** If no two names of a text become one (`NamesApart`), the raised text is alike: its words
  and names are the raised ones (`Likeness.raised`). So are the programs. -/

namespace Chip8.Asm

/-- Raise the letters of a word to upper case. -/
abbrev upperOf (w : List Char) : List Char := w.map Char.toUpper

theorem byteLength_upperOf (w : List Char) : byteLength (upperOf w) = byteLength w := by
  induction w with
  | nil => rfl
  | cons c cs ih =>
      rw [upperOf, List.map_cons, byteLength_cons, byteLength_cons, utf8Size_toUpper]
      exact congrArg _ ih

theorem takeWhile_upperOf {p : Char → Bool} (hp : ∀ c, p c.toUpper = p c) (cs : List Char) :
    (upperOf cs).takeWhile p = upperOf (cs.takeWhile p) := by
  rw [upperOf, List.takeWhile_map]
  exact congrArg (fun q => upperOf (cs.takeWhile q)) (funext hp)

theorem dropWhile_upperOf {p : Char → Bool} (hp : ∀ c, p c.toUpper = p c) (cs : List Char) :
    (upperOf cs).dropWhile p = upperOf (cs.dropWhile p) := by
  rw [upperOf, List.dropWhile_map]
  exact congrArg (fun q => upperOf (cs.dropWhile q)) (funext hp)

/-! ### Tokens -/

namespace Lexeme

/-- The token with its letters raised, in a text with its letters raised. -/
def upper (l : Lexeme) : Lexeme := ⟨l.kind, upperOf l.chars, upperOf l.rest⟩

theorem run_upper {p : Char → Bool} (hp : ∀ c, p c.toUpper = p c) (kind : TokenKind) (c : Char)
    (cs : List Char) : run kind p c.toUpper (upperOf cs) = (run kind p c cs).upper := by
  rw [run, takeWhile_upperOf hp, dropWhile_upperOf hp]
  rfl

theorem pair_upper (second : Char) (hsecond : second.isAlpha = false) (double kind : TokenKind)
    (c : Char) (cs : List Char) :
    pair second double kind c.toUpper (upperOf cs) = (pair second double kind c cs).upper := by
  cases cs with
  | nil => rfl
  | cons d ds =>
      rw [upperOf, List.map_cons, pair, pair]
      by_cases hd : d = second
      · rw [if_pos hd, if_pos ((toUpper_eq_iff hsecond d).mpr hd)]
        rfl
      · rw [if_neg hd, if_neg (mt (toUpper_eq_iff hsecond d).mp hd)]
        rfl

theorem angle_upper {c : Char} (hc : c.isAlpha = false) (relation orEqual shift : Operator)
    (cs : List Char) :
    angle relation orEqual shift c.toUpper (upperOf cs) =
      (angle relation orEqual shift c cs).upper := by
  have hsame : c.toUpper = c := (toUpper_eq_iff hc c).mpr rfl
  cases cs with
  | nil => rfl
  | cons d ds =>
      rw [upperOf, List.map_cons, angle, angle]
      by_cases hd : d = c
      · rw [if_pos hd, if_pos (hd ▸ rfl)]
        rfl
      · have hd' : ¬ d.toUpper = c.toUpper := by
          rw [hsame]
          exact mt (toUpper_eq_iff hc d).mp hd
        rw [if_neg hd, if_neg hd']
        by_cases heq : d = '='
        · rw [if_pos heq, if_pos ((toUpper_eq_iff (k := '=') rfl d).mpr heq)]
          rfl
        · rw [if_neg heq, if_neg (mt (toUpper_eq_iff (k := '=') rfl d).mp heq)]
          rfl

theorem wordOf_upperOf (cs : List Char) : wordOf (upperOf cs) = upperOf (wordOf cs) :=
  takeWhile_upperOf isNamePart_toUpper cs

theorem registerOrNameKind_upperOf (w : List Char) :
    registerOrNameKind (upperOf w) = registerOrNameKind w := by
  cases w with
  | nil => rfl
  | cons d ds =>
      cases ds with
      | nil =>
          show registerOrNameKind [d.toUpper] = _
          rw [registerOrNameKind, registerOrNameKind, digit?_toUpper]
      | cons _ _ => rfl

theorem toUpper_eq_x (d : Char) : d.toUpper = 'x' ∨ d.toUpper = 'X' ↔ d = 'x' ∨ d = 'X' := by
  have h : ∀ k : Char, d = k ↔ d.toNat = k.toNat := fun k => Char.toNat_inj.symm
  have h' : ∀ k : Char, d.toUpper = k ↔ d.toUpper.toNat = k.toNat := fun k => Char.toNat_inj.symm
  rw [h, h, h', h', toNat_toUpper]
  show _ = 120 ∨ _ = 88 ↔ _ = 120 ∨ _ = 88
  split <;> omega

theorem zeroBase_upperOf (w : List Char) : zeroBase (upperOf w) = zeroBase w := by
  cases w with
  | nil => rfl
  | cons d ds =>
      rw [upperOf, List.map_cons, zeroBase, zeroBase]
      simp only [toUpper_eq_x]

theorem dotKind_upperOf (w : List Char) : dotKind (upperOf w) = dotKind w := by
  cases w <;> rfl

theorem isBit_toUpper (d : Char) : isBit d.toUpper = isBit d := by
  unfold isBit
  simp only [toUpper_eq_iff (k := '0') rfl, toUpper_eq_iff (k := '1') rfl]

theorem isBits_upperOf (w : List Char) : isBits (upperOf w) = isBits w := by
  rw [isBits, isBits, SpelledAlike.all_map_toUpper isBit_toUpper, List.isEmpty_map]

theorem mem_marks_of_toUpper {c : Char} (h : c.toUpper ∈ marks) : c ∈ marks := by
  have honly : ∀ k ∈ marks, 65 ≤ k.toNat ∧ k.toNat ≤ 90 → k.toNat = 86 := by
    simp [marks]
  have hupper := toNat_toUpper c
  by_cases hc : 97 ≤ c.toNat ∧ c.toNat ≤ 122
  · rw [if_pos hc] at hupper
    have hv := honly _ h (by omega)
    have hcv : c = 'v' := Char.toNat_inj.mp (show c.toNat = 118 by omega)
    rw [hcv]
    decide
  · rw [if_neg hc] at hupper
    rwa [Char.toNat_inj.mp hupper] at h

theorem percent_upper (c : Char) (cs : List Char) :
    percent c.toUpper (upperOf cs) = (percent c cs).upper := by
  rw [percent_eq, percent_eq, wordOf_upperOf, isBits_upperOf]
  split
  · exact run_upper isBit_toUpper _ c cs
  · rfl

/-- A token that is a character and the word behind it. -/
theorem word_upper {read : Char → List Char → Lexeme} (kind : List Char → TokenKind)
    (hread : ∀ c cs, read c cs = run (kind (wordOf cs)) isNamePart c cs)
    (hkind : ∀ w, kind (upperOf w) = kind w) (c : Char) (cs : List Char) :
    read c.toUpper (upperOf cs) = (read c cs).upper := by
  rw [hread, hread, wordOf_upperOf, hkind]
  exact run_upper isNamePart_toUpper _ c cs

theorem registerOrName_upper (c : Char) (cs : List Char) :
    registerOrName c.toUpper (upperOf cs) = (registerOrName c cs).upper :=
  word_upper registerOrNameKind registerOrName_eq registerOrNameKind_upperOf c cs

/-- The raised text starts with the raised token. -/
theorem scan_upper (c : Char) (cs : List Char) :
    scan c.toUpper (upperOf cs) = (scan c cs).upper := by
  by_cases hc : c ∈ marks
  · simp only [marks, List.mem_cons, List.not_mem_nil, or_false] at hc
    rcases hc with rfl | rfl | rfl | rfl | rfl | rfl | rfl | rfl | rfl | rfl | rfl | rfl | rfl |
      rfl | rfl | rfl | rfl | rfl | rfl | rfl | rfl | rfl | rfl | rfl | rfl
    all_goals first
      | rfl
      | exact pair_upper '|' rfl _ _ '|' cs
      | exact pair_upper '&' rfl _ _ '&' cs
      | exact pair_upper '=' rfl _ _ _ cs
      | exact angle_upper (c := '<') rfl _ _ _ cs
      | exact angle_upper (c := '>') rfl _ _ _ cs
      | exact percent_upper '%' cs
      | exact word_upper dotKind dot_eq dotKind_upperOf '.' cs
      | exact word_upper (fun w => .number (zeroBase w)) zero_eq
          (fun w => congrArg _ (zeroBase_upperOf w)) '0' cs
      | exact registerOrName_upper 'v' cs
      | exact registerOrName_upper 'V' cs
  · rw [scan_of_not_mark hc, scan_of_not_mark (mt mem_marks_of_toUpper hc), isDigit_toUpper,
      isNameStart_toUpper]
    split
    · exact run_upper isNamePart_toUpper _ c cs
    · split
      · exact run_upper isNamePart_toUpper _ c cs
      · rfl

end Lexeme

/-- The token with its letters raised, in the same place. -/
def Token.upper (t : Token) : Token := ⟨t.kind, upperOf t.chars, t.span⟩

/-- **Tokens are raised with their text.** -/
theorem tokensFrom_upper (skip offset : Nat) (cs : List Char) :
    tokensFrom skip offset (upperOf cs) = (tokensFrom skip offset cs).map Token.upper := by
  induction cs generalizing skip offset with
  | nil => rfl
  | cons c cs ih =>
      rw [upperOf, List.map_cons]
      cases skip with
      | succ skip =>
          rw [tokensFrom, tokensFrom, utf8Size_toUpper]
          exact ih skip _
      | zero =>
          rw [tokensFrom, tokensFrom, isBlank_toUpper, utf8Size_toUpper]
          dsimp only
          rw [show List.map Char.toUpper cs = upperOf cs from rfl, Lexeme.scan_upper]
          split
          · exact ih 0 _
          · rw [Lexeme.upper, byteLength_upperOf, List.length_map, ih, List.map_cons]
            rfl

/-! ### Lines -/

/-- The line with its letters raised. -/
def Line.upper (l : Line) : Line := ⟨l.offset, upperOf l.chars, l.terminated⟩

theorem linesFrom_upper (offset : Nat) (cs : List Char) :
    linesFrom offset (upperOf cs) = (linesFrom offset cs).map Line.upper := by
  induction cs generalizing offset with
  | nil => rfl
  | cons c cs ih =>
      rw [upperOf, List.map_cons, linesFrom, linesFrom, utf8Size_toUpper,
        show List.map Char.toUpper cs = upperOf cs from rfl, ih]
      have hline := toUpper_eq_iff (k := '\n') rfl c
      by_cases hc : c = '\n'
      · rw [if_pos hc, if_pos (hline.mpr hc)]
        rfl
      · rw [if_neg hc, if_neg (mt hline.mp hc)]
        cases linesFrom (offset + c.utf8Size) cs <;> rfl

theorem lines_toUpper (source : String) : lines source.toUpper = (lines source).map Line.upper := by
  unfold lines
  rw [String.toUpper, String.toList_map]
  exact linesFrom_upper 0 source.toList

namespace Line

theorem semicolon_toUpper (c : Char) : decide (c.toUpper ≠ ';') = decide (c ≠ ';') := by
  rw [decide_eq_decide, ne_eq, ne_eq, toUpper_eq_iff (k := ';') rfl]

theorem code_upper (l : Line) : l.upper.code = upperOf l.code :=
  takeWhile_upperOf semicolon_toUpper l.chars

theorem tokens_upper (l : Line) : l.upper.tokens = l.tokens.map Token.upper := by
  rw [tokens, code_upper]
  exact tokensFrom_upper 0 l.offset l.code

/-- Lines end with the same token, which has no letters. -/
theorem stop_upper (l : Line) : l.upper.stop = l.stop := by
  have hcomment : l.upper.comment? = l.comment?.map upperOf := by
    unfold comment?
    rw [show l.upper.chars = upperOf l.chars from rfl, dropWhile_upperOf semicolon_toUpper]
    cases l.chars.dropWhile (· ≠ ';') <;> rfl
  have hterminator : l.upper.terminator = l.terminator := by
    unfold terminator endOffset
    rw [show l.upper.chars = upperOf l.chars from rfl, byteLength_upperOf]
    rfl
  unfold stop codeEnd
  rw [hcomment, hterminator, code_upper, byteLength_upperOf]
  cases l.comment? <;> rfl

end Line

/-! ### Names -/

/-- The names in a source text: labels, and what stands as a name in operands. -/
def namesOf (source : String) : List (List Char) :=
  ((lines source).flatMap Line.names).map Token.chars

/-- No two names become one when their letters are raised. -/
def NamesApart (names : List (List Char)) : Prop :=
  ∀ v ∈ names, ∀ w ∈ names, upperOf v = upperOf w → v = w

instance (names : List (List Char)) : Decidable (NamesApart names) :=
  inferInstanceAs (Decidable (∀ v ∈ names, ∀ w ∈ names, upperOf v = upperOf w → v = w))

/-- Readings of which the second has all letters raised, where `names` are the names. -/
def Likeness.raised {names : List (List Char)} (h : NamesApart names) : Likeness where
  place := Eq
  word w w' := w' = upperOf w
  name i i' := i.chars ∈ names ∧ i'.chars = upperOf i.chars
  ending k k' := k = k' ∧ k.endsCode = true
  place_join := by
    rintro a a' b b' rfl rfl
    rfl
  spelledAlike := by
    rintro w w' rfl
    exact SpelledAlike.upper w
  name_iff := by
    intro i i' j j' hi hj
    have hchars : ∀ a b : Identifier, a = b ↔ a.chars = b.chars := fun a b =>
      ⟨congrArg _, fun h => by cases a; cases b; cases h; rfl⟩
    rw [hchars, hchars, hi.2, hj.2]
    exact ⟨congrArg _, h _ hi.1 _ hj.1⟩
  ends := by
    rintro k k' ⟨rfl, hk⟩
    exact ⟨hk, hk⟩

variable {names : List (List Char)} {hnames : NamesApart names}

theorem Likeness.raised_knows {w : List Char} (hw : w ∈ names) :
    (Likeness.raised hnames).Knows w := by
  intro w' i i' hword hi hi'
  have hchars := Identifier.chars_of_ofChars? hi
  have hchars' := Identifier.chars_of_ofChars? hi'
  exact ⟨hchars.symm ▸ hw, by rw [hchars', hchars, hword]⟩

theorem Line.like_upper (l : Line) : l.Like (Likeness.raised hnames) l.upper := by
  refine ⟨?_, ?_⟩
  · rw [tokens_upper, List.forall₂_map_right_iff, List.forall₂_same]
    exact fun t _ => ⟨rfl, rfl, rfl⟩
  · rw [stop_upper]
    exact ⟨⟨rfl, l.endsCode_stop⟩, rfl⟩

theorem like_toUpper (source : String) :
    List.Forall₂ (Line.Like (Likeness.raised hnames)) (lines source) (lines source.toUpper) := by
  rw [lines_toUpper, List.forall₂_map_right_iff, List.forall₂_same]
  exact fun l _ => l.like_upper

/-- **Letter case matters in names only.** A source text whose names stay apart and the text with its
letters raised are both refused, or assembled to the same bytes and the same symbols, whose names are
raised. -/
theorem letter_case_unobservable (source : String) (origin : UInt16)
    (hnames : NamesApart (namesOf source)) :
    (∃ ds ds', assemble source origin = .error ds ∧ assemble source.toUpper origin = .error ds') ∨
      ∃ P P', assemble source origin = .ok P ∧ assemble source.toUpper origin = .ok P' ∧
        P'.bytes = P.bytes ∧
        P'.symbols.symbols.map (fun s => (s.name.chars, s.kind, s.value)) =
          P.symbols.symbols.map (fun s => (upperOf s.name.chars, s.kind, s.value)) := by
  have hknown : ∀ l ∈ lines source, ∀ t ∈ l.names, (Likeness.raised hnames).Knows t.chars :=
    fun l hl t ht => Likeness.raised_knows
      (List.mem_map_of_mem (List.mem_flatMap.mpr ⟨l, hl, ht⟩))
  rcases (like_assemble (like_toUpper source) hknown origin).results with
    ⟨P, P', hP, hP', hlike⟩ | ⟨ds, ds', hds, hds', -⟩
  · refine Or.inr ⟨P, P', hP, hP', hlike.bytes.symm, ?_⟩
    have hsymbols := hlike.symbols
    unfold SymbolTable.Like at hsymbols
    rw [← List.forall₂_eq_eq_eq, List.forall₂_map_left_iff, List.forall₂_map_right_iff]
    exact hsymbols.flip.imp fun s' s hs => by rw [hs.name.2, hs.kind, hs.value]
  · exact Or.inl ⟨ds, ds', hds, hds'⟩

theorem letter_case_unobservable_small_letters :
    NamesApart (namesOf "loop: ld va, 0xfe\n.equ Count, 2\njp loop+Count") ∧
      ((∃ ds ds', assemble "loop: ld va, 0xfe\n.equ Count, 2\njp loop+Count" 0x200 = .error ds ∧
        assemble "loop: ld va, 0xfe\n.equ Count, 2\njp loop+Count".toUpper 0x200 = .error ds') ∨
      ∃ P P', assemble "loop: ld va, 0xfe\n.equ Count, 2\njp loop+Count" 0x200 = .ok P ∧
        assemble "loop: ld va, 0xfe\n.equ Count, 2\njp loop+Count".toUpper 0x200 = .ok P' ∧
        P'.bytes = P.bytes ∧
        P'.symbols.symbols.map (fun s => (s.name.chars, s.kind, s.value)) =
          P.symbols.symbols.map (fun s => (upperOf s.name.chars, s.kind, s.value))) := by
  have hnames : NamesApart (namesOf "loop: ld va, 0xfe\n.equ Count, 2\njp loop+Count") := by
    decide +kernel
  exact ⟨hnames, letter_case_unobservable _ 0x200 hnames⟩

end Chip8.Asm
