import Chip8.Proofs.Asm.Spelling
import Chip8.Proofs.Asm.Tokens

/-! # Looking ahead

How much of a text decides its first token.

* **Words.** Beside the character that a token starts with, the decision rests on the word behind it:
  the longest run of name characters. `registerOrName_eq`, `zero_eq`, `dot_eq` and `percent_eq` say
  which token that gives.
* **Ends.** A token is a prefix of the text. It stays the same token if what is behind it changes, as
  long as the next character and the word it starts do not, or as long as a name can start there
  (`LooksAhead`). Blanks, the ends of lines and the marks of comments break off every token in front
  of them (`Breaks`).
* **Cuts.** So a text is read in two parts if the second one starts with such a character
  (`tokensFrom_append`). -/

namespace Chip8.Asm

/-! ### Characters that break off -/

/-- Whether no token that starts in front of a character goes on with it. -/
def breaks (c : Char) : Bool :=
  !isNamePart c && !(['=', '|', '&', '<', '>'] : List Char).contains c

/-- What comes first goes on with no token, if there is anything. -/
def Breaks (rest : List Char) : Prop := rest.head?.all breaks = true

theorem breaks_cons {c : Char} (hc : breaks c = true) (cs : List Char) : Breaks (c :: cs) := hc

theorem breaks_of_isBlank {c : Char} (hc : isBlank c = true) : breaks c = true := by
  unfold isBlank at hc
  simp only [Bool.or_eq_true, decide_eq_true_eq] at hc
  rcases hc with (rfl | rfl) | rfl <;> rfl

/-- The longest word at the start of a text. -/
abbrev wordOf (cs : List Char) : List Char := cs.takeWhile isNamePart

/-- A word ends where no part of a name follows. -/
theorem delimited_dropWhile (cs : List Char) : Delimited (cs.dropWhile isNamePart) := by
  unfold Delimited
  cases h : cs.dropWhile isNamePart with
  | nil => rfl
  | cons d ds =>
      have hd := List.head?_dropWhile_not isNamePart cs
      rw [h] at hd
      simpa using hd

theorem Breaks.delimited {rest : List Char} (h : Breaks rest) : Delimited rest := by
  cases rest with
  | nil => exact delimited_nil
  | cons c cs =>
      have hc : breaks c = true := h
      rw [breaks, Bool.and_eq_true, Bool.not_eq_true'] at hc
      exact hc.1

theorem wordOf_of_delimited {rest : List Char} (h : Delimited rest) : wordOf rest = [] := by
  cases rest with
  | nil => rfl
  | cons c cs =>
      have hc : isNamePart c = false := h
      rw [wordOf, List.takeWhile_cons, hc]
      rfl

theorem all_wordOf (cs : List Char) : (wordOf cs).all isNamePart = true :=
  List.all_takeWhile

/-! ### Words -/

theorem isNamePart_of_digit? {b d : Nat} {c : Char}
    (h : Numeral.digit? b c = some d) : isNamePart c = true := by
  have hle : ∀ x y : Char, x ≤ y ↔ x.toNat ≤ y.toNat := fun _ _ => Iff.rfl
  rw [isNamePart_iff]
  unfold Numeral.digit? at h
  simp only [hle] at h
  split at h
  · rename_i hdigit
    exact Or.inr (Or.inr (Or.inl hdigit))
  · split at h
    · rename_i hlower
      exact Or.inr (Or.inl hlower)
    · split at h
      · rename_i hupper
        exact Or.inl hupper
      · rw [if_neg (Nat.lt_irrefl b)] at h
        cases h

namespace Lexeme

/-- A `v` in front of one hexadecimal digit and nothing else is a register. -/
def registerOrNameKind (w : List Char) : TokenKind :=
  match w with
  | [d] =>
      match Numeral.digit? 16 d with
      | some n => .register n.toUInt8
      | none => .name
  | _ => .name

theorem registerOrName_eq (c : Char) (cs : List Char) :
    registerOrName c cs = run (registerOrNameKind (wordOf cs)) isNamePart c cs := by
  cases cs with
  | nil => rfl
  | cons d rest =>
      unfold registerOrName
      dsimp only
      cases hd : Numeral.digit? 16 d with
      | none =>
          have hkind : registerOrNameKind (wordOf (d :: rest)) = .name := by
            rw [wordOf, List.takeWhile_cons]
            split
            · cases rest.takeWhile isNamePart with
              | nil =>
                  rw [registerOrNameKind, hd]
              | cons _ _ => rfl
            · rfl
          rw [hkind]
      | some n =>
          have hpart : isNamePart d = true := isNamePart_of_digit? hd
          dsimp only
          rw [run, run, wordOf, List.takeWhile_cons, List.dropWhile_cons, hpart, if_pos rfl,
            if_pos rfl]
          cases rest with
          | nil =>
              rw [if_neg (by decide), List.takeWhile_nil, List.dropWhile_nil, registerOrNameKind,
                hd]
          | cons e es =>
              rw [List.head?_cons, Option.any_some, List.takeWhile_cons, List.dropWhile_cons]
              split
              · rfl
              · rw [registerOrNameKind, hd]

/-- An `x` behind a zero makes the number a hexadecimal one. -/
def zeroBase (w : List Char) : Base :=
  match w with
  | d :: _ => if d = 'x' ∨ d = 'X' then .hexadecimal else .decimal
  | [] => .decimal

theorem zero_eq (c : Char) (cs : List Char) :
    zero c cs = run (.number (zeroBase (wordOf cs))) isNamePart c cs := by
  cases cs with
  | nil => rfl
  | cons d rest =>
      unfold zero
      dsimp only
      rw [wordOf, List.takeWhile_cons]
      split
      · rename_i hx
        have hpart : isNamePart d = true := by
          rcases hx with rfl | rfl <;> rfl
        rw [if_pos hpart, zeroBase, if_pos hx, run, List.takeWhile_cons, List.dropWhile_cons,
          if_pos hpart, if_pos hpart]
      · rename_i hx
        split
        · rw [zeroBase, if_neg hx]
        · rfl

/-- A dot in front of no word stands on its own. -/
def dotKind (w : List Char) : TokenKind :=
  match w with
  | [] => .unknown
  | _ :: _ => .directive

theorem dot_eq (c : Char) (cs : List Char) :
    dot c cs = run (dotKind (wordOf cs)) isNamePart c cs := by
  have hsplit : wordOf cs ++ cs.dropWhile isNamePart = cs := List.takeWhile_append_dropWhile
  unfold dot run single
  dsimp only
  rw [List.length_cons]
  generalize cs.dropWhile isNamePart = rest at hsplit ⊢
  unfold wordOf at hsplit ⊢
  generalize cs.takeWhile isNamePart = w at hsplit ⊢
  cases w with
  | nil =>
      rw [if_neg (by decide), ← hsplit]
      rfl
  | cons d ds =>
      rw [if_pos (by rw [List.length_cons]; omega)]
      rfl

def isBit (d : Char) : Bool := d = '0' || d = '1'

theorem isNamePart_of_isBit {d : Char} (hd : isBit d = true) : isNamePart d = true := by
  rw [isBit, Bool.or_eq_true, decide_eq_true_iff, decide_eq_true_iff] at hd
  rcases hd with rfl | rfl <;> rfl

/-- A word of binary digits. -/
def isBits (w : List Char) : Bool := !w.isEmpty && w.all isBit

/-- Bits that no part of a name follows are a word. -/
theorem isBits_iff (cs : List Char) :
    isBits (wordOf cs) = true ↔
      cs.takeWhile isBit ≠ [] ∧ Delimited (cs.dropWhile isBit) := by
  rw [isBits, Bool.and_eq_true, Bool.not_eq_true', List.isEmpty_eq_false_iff]
  constructor
  · rintro ⟨hne, hall⟩
    have hstop : (cs.dropWhile isNamePart).head?.any isBit = false := by
      have hrest := delimited_dropWhile cs
      cases hcs : (cs.dropWhile isNamePart).head? with
      | none => rfl
      | some d =>
          rw [Delimited, hcs, Option.any_some] at hrest
          rw [Option.any_some, Bool.eq_false_iff]
          exact fun hd => absurd (isNamePart_of_isBit hd) (Bool.eq_false_iff.mp hrest)
    obtain ⟨htake, hdrop⟩ := takeWhile_of_stop hall hstop
    rw [wordOf, List.takeWhile_append_dropWhile] at htake hdrop
    rw [htake, hdrop]
    exact ⟨hne, delimited_dropWhile cs⟩
  · rintro ⟨hne, hrest⟩
    have hall : (cs.takeWhile isBit).all isBit = true := List.all_takeWhile
    have hname : (cs.takeWhile isBit).all isNamePart = true :=
      List.all_eq_true.mpr fun d hd => isNamePart_of_isBit (List.all_eq_true.mp hall d hd)
    obtain ⟨htake, -⟩ := takeWhile_of_delimited hname hrest
    rw [List.takeWhile_append_dropWhile] at htake
    rw [wordOf, htake]
    exact ⟨hne, hall⟩

theorem percent_eq (c : Char) (cs : List Char) :
    percent c cs =
      if isBits (wordOf cs) then run (.number .binary) isBit c cs
      else single (.operator .rem) c cs := by
  have hlong : 1 < (c :: cs.takeWhile isBit).length ↔ cs.takeWhile isBit ≠ [] := by
    rw [List.length_cons, ← List.length_pos_iff]
    omega
  have hiff : (1 < (c :: cs.takeWhile isBit).length ∧
      ¬ (cs.dropWhile isBit).head?.any isNamePart = true) ↔ isBits (wordOf cs) = true := by
    rw [hlong, isBits_iff, Delimited, Bool.not_eq_true]
  by_cases h : isBits (wordOf cs) = true
  · rw [if_pos h]
    exact if_pos (hiff.mpr h)
  · rw [if_neg h]
    exact if_neg (mt hiff.mp h)

end Lexeme

/-! ### Ends of tokens -/

/-- What comes first can start a name. -/
def StartsName (rest : List Char) : Prop := rest.head?.any isNameStart = true

/-- One text can stand for another one behind a token: the new one breaks off, or both start with one
character and one word, or both can start a name. -/
inductive SameBehind (rest rest' : List Char) : Prop
  | breaks (h : Breaks rest')
  | word (head : rest'.head? = rest.head?) (word : wordOf rest' = wordOf rest)
  | name (h : StartsName rest) (h' : StartsName rest')

theorem SameBehind.refl (rest : List Char) : SameBehind rest rest := .word rfl rfl

theorem StartsName.not_delimited {rest : List Char} (h : StartsName rest) : ¬ Delimited rest := by
  intro hrest
  cases rest with
  | nil => cases h
  | cons c cs =>
      have hc : isNameStart c = true := h
      rw [Delimited, List.head?_cons, Option.any_some, isNamePart_of_isNameStart hc] at hrest
      cases hrest

theorem SameBehind.delimited {rest rest' : List Char} (h : SameBehind rest rest')
    (hrest : Delimited rest) : Delimited rest' := by
  cases h with
  | breaks h => exact h.delimited
  | word hhead hword =>
      rw [Delimited, hhead]
      exact hrest
  | name h h' => exact absurd hrest h.not_delimited

/-- The token in front of `rest` is a prefix of the text, and stays where another text can stand for
`rest`. -/
structure LooksAhead (c : Char) (read : List Char → Lexeme) (cs : List Char) (kind : TokenKind)
    (taken rest : List Char) : Prop where
  split : cs = taken ++ rest
  stays : ∀ {rest'}, SameBehind rest rest' → read (taken ++ rest') = ⟨kind, c :: taken, rest'⟩

/-- Whatever the text is, its first token looks ahead no further. -/
def LooksAheadAlways (c : Char) (read : List Char → Lexeme) : Prop :=
  ∀ cs, ∃ kind taken rest, LooksAhead c read cs kind taken rest

theorem LooksAhead.reads {c : Char} {read : List Char → Lexeme} {cs : List Char}
    {kind : TokenKind} {taken rest : List Char} (h : LooksAhead c read cs kind taken rest) :
    read cs = ⟨kind, c :: taken, rest⟩ := by
  rw [h.split]
  exact h.stays (SameBehind.refl rest)

namespace Lexeme

theorem looksAhead_single (kind : TokenKind) (c : Char) : LooksAheadAlways c (single kind c) :=
  fun cs => ⟨kind, [], cs, rfl, fun _ => rfl⟩

/-- Tokens that are a character and the word behind it. -/
theorem looksAhead_word {c : Char} {read : List Char → Lexeme} (kind : List Char → TokenKind)
    (hread : ∀ cs, read cs = run (kind (wordOf cs)) isNamePart c cs) :
    LooksAheadAlways c read := by
  intro cs
  refine ⟨kind (wordOf cs), wordOf cs, cs.dropWhile isNamePart,
    List.takeWhile_append_dropWhile.symm, fun hrest => ?_⟩
  have hdelimited := hrest.delimited (delimited_dropWhile cs)
  have hword : wordOf (wordOf cs ++ _) = wordOf cs :=
    (takeWhile_of_delimited (all_wordOf cs) hdelimited).1
  rw [hread, hword]
  exact run_of_delimited (all_wordOf cs) hdelimited

/-- A character that goes on with an operator is there in both texts or in none. -/
theorem head_of_sameBehind {rest rest' : List Char} (h : SameBehind rest rest') {d : Char}
    (hd : breaks d = false) (hstart : isNameStart d = false) (hrest : rest.head? ≠ some d) :
    rest'.head? ≠ some d := by
  cases h with
  | breaks h =>
      intro hd'
      rw [Breaks, hd', Option.all_some, hd] at h
      cases h
  | word hhead hword =>
      rw [hhead]
      exact hrest
  | name h h' =>
      intro hd'
      rw [StartsName, hd', Option.any_some, hstart] at h'
      cases h'

theorem pair_of_head {second : Char} {double kind : TokenKind} {c : Char} {cs : List Char}
    (h : cs.head? ≠ some second) : pair second double kind c cs = ⟨kind, [c], cs⟩ := by
  cases cs with
  | nil => rfl
  | cons d ds => exact if_neg fun hd => h (congrArg some hd)

theorem looksAhead_pair {second : Char} (hsecond : breaks second = false)
    (hstart : isNameStart second = false) (double kind : TokenKind) (c : Char) :
    LooksAheadAlways c (pair second double kind c) := by
  intro cs
  by_cases hcs : cs.head? = some second
  · obtain ⟨ds, rfl⟩ := List.head?_eq_some_iff.mp hcs
    exact ⟨double, [second], ds, rfl, fun _ => if_pos rfl⟩
  · exact ⟨kind, [], cs, rfl, fun hrest =>
      pair_of_head (head_of_sameBehind hrest hsecond hstart hcs)⟩

theorem angle_of_head {relation orEqual shift : Operator} {c : Char} {cs : List Char}
    (h : cs.head? ≠ some c) (heq : cs.head? ≠ some '=') :
    angle relation orEqual shift c cs = ⟨.operator relation, [c], cs⟩ := by
  cases cs with
  | nil => rfl
  | cons d ds =>
      rw [angle, if_neg fun hd => h (congrArg some hd), if_neg fun hd => heq (congrArg some hd)]

theorem looksAhead_angle {c : Char} (hc : breaks c = false) (hstart : isNameStart c = false)
    (hne : c ≠ '=') (relation orEqual shift : Operator) :
    LooksAheadAlways c (angle relation orEqual shift c) := by
  intro cs
  by_cases hcs : cs.head? = some c
  · obtain ⟨ds, rfl⟩ := List.head?_eq_some_iff.mp hcs
    exact ⟨.operator shift, [c], ds, rfl, fun _ => if_pos rfl⟩
  · by_cases heq : cs.head? = some '='
    · obtain ⟨ds, rfl⟩ := List.head?_eq_some_iff.mp heq
      refine ⟨.operator orEqual, ['='], ds, rfl, fun _ => ?_⟩
      show angle relation orEqual shift c ('=' :: _) = _
      rw [angle, if_neg hne.symm, if_pos rfl]
      rfl
    · refine ⟨.operator relation, [], cs, rfl, fun hrest => ?_⟩
      exact angle_of_head (head_of_sameBehind hrest hc hstart hcs)
        (head_of_sameBehind hrest (by decide) (by decide) heq)

/-- No digit starts a name. -/
theorem not_isBits_of_startsName {rest : List Char} (h : StartsName rest) :
    ¬ isBits (wordOf rest) = true := by
  intro hbits
  cases rest with
  | nil => cases h
  | cons d ds =>
      have hd : isNameStart d = true := h
      rw [wordOf, List.takeWhile_cons, if_pos (isNamePart_of_isNameStart hd), isBits,
        List.all_cons, Bool.and_eq_true, Bool.and_eq_true] at hbits
      have hbit := hbits.2.1
      rw [isBit, Bool.or_eq_true, decide_eq_true_iff, decide_eq_true_iff] at hbit
      rcases hbit with rfl | rfl <;> cases hd

theorem looksAhead_percent (c : Char) : LooksAheadAlways c (percent c) := by
  intro cs
  by_cases hbits : isBits (wordOf cs) = true
  · obtain ⟨hne, hrest⟩ := (isBits_iff cs).mp hbits
    have hall : (cs.takeWhile isBit).all isBit = true := List.all_takeWhile
    refine ⟨.number .binary, cs.takeWhile isBit, cs.dropWhile isBit,
      List.takeWhile_append_dropWhile.symm, @fun rest' hrest' => ?_⟩
    have hdelimited := hrest'.delimited hrest
    have hstop : rest'.head?.any isBit = false := by
      rw [Delimited] at hdelimited
      cases hhead : rest'.head? with
      | none => rfl
      | some d =>
          rw [hhead, Option.any_some] at hdelimited
          rw [Option.any_some, Bool.eq_false_iff]
          exact fun hd => absurd (isNamePart_of_isBit hd) (Bool.eq_false_iff.mp hdelimited)
    obtain ⟨htake, hdrop⟩ := takeWhile_of_stop hall hstop
    have hbits' : isBits (wordOf (cs.takeWhile isBit ++ rest')) = true := by
      rw [isBits_iff, htake, hdrop]
      exact ⟨hne, hdelimited⟩
    rw [percent_eq, if_pos hbits', run, htake, hdrop]
  · refine ⟨.operator .rem, [], cs, rfl, @fun rest' hrest' => ?_⟩
    have hbits' : ¬ isBits (wordOf rest') = true := by
      cases hrest' with
      | breaks h =>
          rw [wordOf_of_delimited h.delimited]
          decide
      | word hhead hword =>
          rw [hword]
          exact hbits
      | name h h' => exact not_isBits_of_startsName h'
    rw [List.nil_append, percent_eq, if_neg hbits']
    rfl

/-- The characters that tell by themselves which token starts. -/
def marks : List Char :=
  ['\n', ';', ',', ':', '(', ')', '[', ']', '|', '&', '=', '!', '<', '>', '^', '+', '-', '*', '/',
    '~', '%', '.', '0', 'v', 'V']

/-- All other characters start a number, a name or nothing. -/
theorem scan_of_not_mark {c : Char} (hc : c ∉ marks) (cs : List Char) :
    scan c cs =
      if c.isDigit then run (.number .decimal) isNamePart c cs
      else if isNameStart c then run .name isNamePart c cs
      else single .unknown c cs := by
  unfold scan
  split
  all_goals first | exact absurd (by decide) hc | rfl

/-- A token that starts within a word is the rest of the word. -/
theorem scan_word {d : Char} (hd : isNamePart d = true) (cs : List Char) :
    ∃ kind, scan d cs = run kind isNamePart d cs := by
  by_cases hmark : d ∈ marks
  · simp only [marks, List.mem_cons, List.not_mem_nil, or_false] at hmark
    rcases hmark with rfl | rfl | rfl | rfl | rfl | rfl | rfl | rfl | rfl | rfl | rfl | rfl | rfl |
      rfl | rfl | rfl | rfl | rfl | rfl | rfl | rfl | rfl | rfl | rfl | rfl
    all_goals first
      | exact absurd hd (by decide)
      | exact ⟨_, zero_eq _ cs⟩
      | exact ⟨_, registerOrName_eq _ cs⟩
  · rw [scan_of_not_mark hmark]
    by_cases hdigit : d.isDigit = true
    · exact ⟨_, if_pos hdigit⟩
    · have hstart : isNameStart d = true := by
        rw [isNamePart_iff] at hd
        rw [isDigit_iff] at hdigit
        rw [isNameStart_iff]
        omega
      rw [if_neg hdigit, if_pos hstart]
      exact ⟨_, rfl⟩

/-- **No token is decided by more than the character and the word behind it.** -/
theorem looksAhead_scan (c : Char) : LooksAheadAlways c (scan c) := by
  by_cases hc : c ∈ marks
  · simp only [marks, List.mem_cons, List.not_mem_nil, or_false] at hc
    rcases hc with rfl | rfl | rfl | rfl | rfl | rfl | rfl | rfl | rfl | rfl | rfl | rfl | rfl |
      rfl | rfl | rfl | rfl | rfl | rfl | rfl | rfl | rfl | rfl | rfl | rfl
    all_goals first
      | exact looksAhead_single _ _
      | exact looksAhead_pair rfl rfl _ _ _
      | exact looksAhead_angle rfl rfl (by decide) _ _ _
      | exact looksAhead_percent _
      | exact looksAhead_word dotKind (dot_eq _)
      | exact looksAhead_word (fun w => .number (zeroBase w)) (zero_eq _)
      | exact looksAhead_word registerOrNameKind (registerOrName_eq _)
  · have hscan := scan_of_not_mark hc
    by_cases hdigit : c.isDigit = true
    · exact looksAhead_word (fun _ => .number .decimal) fun cs => by
        rw [hscan, if_pos hdigit]
    · by_cases hstart : isNameStart c = true
      · exact looksAhead_word (fun _ => .name) fun cs => by
          rw [hscan, if_neg hdigit, if_pos hstart]
      · have hsingle : scan c = single .unknown c := by
          funext cs
          rw [hscan, if_neg hdigit, if_neg hstart]
        rw [hsingle]
        exact looksAhead_single _ _

end Lexeme

/-! ### Cuts -/

/-- The first token of a text that starts with no blank, and then the tokens of what follows it. -/
theorem tokensFrom_cons {c : Char} {cs taken rest : List Char} {kind : TokenKind} (offset : Nat)
    (hc : isBlank c = false) (hcs : cs = taken ++ rest)
    (hscan : Lexeme.scan c (taken ++ rest) = ⟨kind, c :: taken, rest⟩) :
    tokensFrom 0 offset (c :: cs) =
      ⟨kind, c :: taken, ⟨offset, byteLength (c :: taken)⟩⟩ ::
        tokensFrom 0 (offset + byteLength (c :: taken)) rest := by
  rw [tokensFrom]
  dsimp only
  rw [hc, hcs, hscan]
  simp only [Bool.false_eq_true, if_false, List.length_cons, Nat.add_sub_cancel]
  rw [tokensFrom_skip, byteLength_cons, Nat.add_assoc]

theorem tokensFrom_blank {c : Char} (offset : Nat) (hc : isBlank c = true) (cs : List Char) :
    tokensFrom 0 offset (c :: cs) = tokensFrom 0 (offset + c.utf8Size) cs := by
  rw [tokensFrom]
  exact if_pos hc

/-- Where a text breaks off, nothing in front of it is read in another way than at the end of a
text. -/
theorem sameBehind_append (cs : List Char) {rest : List Char} (hrest : Breaks rest) :
    SameBehind cs (cs ++ rest) := by
  cases cs with
  | nil => exact .breaks hrest
  | cons c cs =>
      refine .word rfl ?_
      have hword : ∀ ds : List Char, wordOf (ds ++ rest) = wordOf ds := by
        intro ds
        induction ds with
        | nil => exact wordOf_of_delimited hrest.delimited
        | cons d ds ih =>
            rw [wordOf, wordOf, List.cons_append, List.takeWhile_cons, List.takeWhile_cons]
            split
            · exact congrArg _ ih
            · rfl
      exact hword (c :: cs)

/-- **A text is read in two parts** where the second one starts with a character that breaks off. -/
theorem tokensFrom_append (offset : Nat) (cs : List Char) {rest : List Char} (hrest : Breaks rest) :
    tokensFrom 0 offset (cs ++ rest) =
      tokensFrom 0 offset cs ++ tokensFrom 0 (offset + byteLength cs) rest := by
  -- The induction is on the length: a token takes more than one character at once.
  induction hlength : cs.length using Nat.strongRecOn generalizing offset cs with
  | _ length ih =>
      cases cs with
      | nil => rfl
      | cons c cs =>
          cases hc : isBlank c with
          | true =>
              rw [List.cons_append, tokensFrom_blank _ hc, tokensFrom_blank _ hc, byteLength_cons,
                ← Nat.add_assoc]
              exact ih cs.length (by rw [← hlength]; exact Nat.lt_succ_self _) _ cs rfl
          | false =>
              obtain ⟨kind, taken, ds, h⟩ := Lexeme.looksAhead_scan c cs
              have hcs := h.split
              have hlonger : cs ++ rest = taken ++ (ds ++ rest) := by rw [hcs, List.append_assoc]
              have hshorter : ds.length < length := by
                rw [← hlength, hcs, List.length_cons, List.length_append]
                omega
              rw [List.cons_append, tokensFrom_cons _ hc hcs (h.stays (SameBehind.refl ds)),
                tokensFrom_cons _ hc hlonger (h.stays (sameBehind_append ds hrest)),
                ih ds.length hshorter _ ds rfl, hcs, List.cons_append, byteLength_cons,
                byteLength_cons, byteLength_append]
              simp only [Nat.add_assoc]

end Chip8.Asm
