import Chip8.Proofs.Asm.AlikePrograms
import Chip8.Proofs.Asm.Lookahead

/-! # Blanks and comments

Neither blanks nor comments change what is assembled.

* Two source texts have the `SameCode` if their lines have the same tokens in front of the comments.
  They are alike in all but places and the ends of lines (`Likeness.layout`), and so are the
  programs.
* `faces_insert_blanks`: blanks may stand between any two tokens. The induction goes from token to
  token; the one in front of the cut may have looked ahead behind it, but not into another word. -/

namespace Chip8.Asm

/-! ### One code, two layouts -/

/-- The lines have the same tokens in front of their comments. -/
def SameCode (source source' : String) : Prop :=
  List.Forall₂ (fun l l' => l.tokens.map Token.face = l'.tokens.map Token.face)
    (lines source) (lines source')

/-- Readings that differ in places and in what ends the code of a line. -/
def Likeness.layout : Likeness where
  place _ _ := True
  word := Eq
  name := Eq
  ending k k' := k.endsCode = true ∧ k'.endsCode = true
  place_join _ _ := trivial
  spelledAlike := .of_eq
  name_iff := eq_iff_of_eq
  ends h := h

theorem Likeness.layout_knows (w : List Char) : Likeness.layout.Knows w :=
  knows_of_same id (fun _ => rfl) w

theorem like_of_face {t t' : Token} (h : t.face = t'.face) : t.Like Likeness.layout t' :=
  ⟨(Prod.mk.inj h).1, (Prod.mk.inj h).2, trivial⟩

theorem like_of_map_face {ts ts' : List Token} (h : ts.map Token.face = ts'.map Token.face) :
    List.Forall₂ (Token.Like Likeness.layout) ts ts' := by
  have hfaces : List.Forall₂ (fun t t' : Token => t.face = t'.face) ts ts' := by
    rw [← List.forall₂_map_right_iff (R := fun t f => Token.face t = f),
      ← List.forall₂_map_left_iff (R := Eq), h, List.forall₂_eq_eq_eq]
  exact hfaces.imp fun t t' => like_of_face

/-- Lines with the same tokens are alike, whatever ends them. -/
theorem Line.like_of_map_face {l l' : Line}
    (h : l.tokens.map Token.face = l'.tokens.map Token.face) : l.Like .layout l' :=
  ⟨Asm.like_of_map_face h, ⟨l.endsCode_stop, l'.endsCode_stop⟩, trivial⟩

theorem like_of_sameCode {source source' : String} (h : SameCode source source') :
    List.Forall₂ (Line.Like Likeness.layout) (lines source) (lines source') :=
  h.imp fun _ _ => Line.like_of_map_face

/-- What a table tells about a symbol. -/
def Symbol.entry (s : Symbol) : Identifier × SymbolKind × Option Int64 := (s.name, s.kind, s.value)

theorem entries_of_like {T T' : SymbolTable} (h : T.Like Likeness.layout T') :
    T.symbols.map Symbol.entry = T'.symbols.map Symbol.entry := by
  unfold SymbolTable.Like at h
  rw [← List.forall₂_eq_eq_eq, List.forall₂_map_left_iff, List.forall₂_map_right_iff]
  exact h.imp fun s s' hs => by rw [Symbol.entry, Symbol.entry, hs.name, hs.kind, hs.value]

/-! ### Blanks between tokens -/

theorem faces_append_blanks {blanks : List Char} (hblanks : blanks.all isBlank = true)
    (cs : List Char) : faces (blanks ++ cs) = faces cs := by
  induction blanks with
  | nil => rfl
  | cons c blanks ih =>
      rw [List.all_cons, Bool.and_eq_true] at hblanks
      rw [List.cons_append, faces_blank hblanks.1]
      exact ih hblanks.2

/-- No token is cut at a place. -/
def UncutAt (place : Nat) (ts : List Token) : Prop :=
  ∀ t ∈ ts, t.span.stop ≤ place ∨ place ≤ t.span.start

instance (place : Nat) (ts : List Token) : Decidable (UncutAt place ts) :=
  inferInstanceAs (Decidable (∀ t ∈ ts, t.span.stop ≤ place ∨ place ≤ t.span.start))

/-- A text that is no longer than a prefix is a prefix of it. -/
theorem exists_of_append_eq {as bs taken rest : List Char} (h : as ++ bs = taken ++ rest)
    (hle : byteLength taken ≤ byteLength as) : ∃ cs, as = taken ++ cs ∧ rest = cs ++ bs := by
  rcases List.append_eq_append_iff.mp h with ⟨ds, htaken, hbs⟩ | ⟨cs, has, hrest⟩
  · have hnone : ds = [] := by
      cases ds with
      | nil => rfl
      | cons d ds =>
          have hpos := Char.utf8Size_pos d
          rw [htaken, byteLength_append, byteLength_cons] at hle
          omega
    rw [hnone] at htaken hbs
    exact ⟨[], by rw [htaken, List.append_nil, List.append_nil], hbs.symm⟩
  · exact ⟨cs, has, hrest⟩

/-- The first token of a text ends in front of a cut that is in no token. -/
theorem first_of_uncut {offset : Nat} {c : Char} {front back taken rest : List Char}
    {kind : TokenKind} {ts : List Token} (hcs : front ++ back = taken ++ rest)
    (huncut : UncutAt (offset + byteLength (c :: front))
      (⟨kind, c :: taken, ⟨offset, byteLength (c :: taken)⟩⟩ :: ts)) :
    ∃ cs, front = taken ++ cs ∧ rest = cs ++ back := by
  refine exists_of_append_eq hcs ?_
  have hpos := Char.utf8Size_pos c
  have hends := huncut _ List.mem_cons_self
  rw [Span.stop, byteLength_cons, byteLength_cons] at hends
  dsimp only at hends
  omega

/-- Where the cut is in no token, blanks there leave the word in front of it as it is. -/
theorem sameBehind_insert_blanks {offset : Nat} {front back blanks : List Char}
    (huncut : UncutAt (offset + byteLength front) (tokensFrom 0 offset (front ++ back)))
    (hblanks : Breaks (blanks ++ back)) :
    SameBehind (front ++ back) (front ++ (blanks ++ back)) := by
  cases front with
  | nil => exact .breaks hblanks
  | cons d ds =>
      refine .word rfl ?_
      rw [wordOf, wordOf, List.cons_append, List.cons_append, List.takeWhile_cons,
        List.takeWhile_cons]
      by_cases hd : isNamePart d = true
      · rw [if_pos hd, if_pos hd]
        obtain ⟨kind, hscan⟩ := Lexeme.scan_word hd (ds ++ back)
        have hsplit : ds ++ back = wordOf (ds ++ back) ++ (ds ++ back).dropWhile isNamePart :=
          List.takeWhile_append_dropWhile.symm
        rw [List.cons_append, tokensFrom_cons offset (not_isBlank_of_isNamePart hd) hsplit
          (by rw [← hsplit]; exact hscan)] at huncut
        obtain ⟨cs, hds, hrest⟩ := first_of_uncut hsplit huncut
        have hdelimited : Delimited (cs ++ (blanks ++ back)) := by
          have h := delimited_dropWhile (ds ++ back)
          rw [hrest] at h
          cases cs with
          | nil => exact hblanks.delimited
          | cons _ _ => exact h
        have hword := (takeWhile_of_delimited (all_wordOf (ds ++ back)) hdelimited).1
        rw [← List.append_assoc, ← hds] at hword
        rw [hword]
      · rw [if_neg hd, if_neg hd]

/-- The induction is on the length of the text in front of the cut. -/
theorem faces_insert_blanks {offset : Nat} {front back blanks : List Char}
    (huncut : UncutAt (offset + byteLength front) (tokensFrom 0 offset (front ++ back)))
    (hall : blanks.all isBlank = true) (hblanks : Breaks (blanks ++ back)) :
    faces (front ++ (blanks ++ back)) = faces (front ++ back) := by
  induction hlength : front.length using Nat.strongRecOn generalizing offset front with
  | _ length ih =>
      cases front with
      | nil => exact faces_append_blanks hall back
      | cons c cs =>
          cases hc : isBlank c with
          | true =>
              rw [List.cons_append, tokensFrom_blank _ hc, byteLength_cons, ← Nat.add_assoc]
                at huncut
              rw [List.cons_append, List.cons_append, faces_blank hc, faces_blank hc]
              exact ih cs.length (by rw [← hlength]; exact Nat.lt_succ_self _) huncut rfl
          | false =>
              obtain ⟨kind, taken, rest, h⟩ := Lexeme.looksAhead_scan c (cs ++ back)
              rw [List.cons_append, tokensFrom_cons offset hc h.split
                (h.stays (SameBehind.refl rest))] at huncut
              obtain ⟨ds, hcs, hrest⟩ := first_of_uncut h.split huncut
              have huncut' : UncutAt (offset + byteLength (c :: taken) + byteLength ds)
                  (tokensFrom 0 (offset + byteLength (c :: taken)) (ds ++ back)) := by
                intro t ht
                have := huncut t (List.mem_cons_of_mem _ (hrest ▸ ht))
                rw [hcs, ← List.cons_append, byteLength_append, ← Nat.add_assoc] at this
                exact this
              have hsame : SameBehind rest (ds ++ (blanks ++ back)) :=
                hrest ▸ sameBehind_insert_blanks huncut' hblanks
              have hshorter : ds.length < length := by
                rw [← hlength, hcs, List.length_cons, List.length_append]
                omega
              rw [hcs, List.cons_append, List.cons_append, List.append_assoc, List.append_assoc,
                faces_cons taken hc (h.stays hsame) rfl,
                faces_cons taken hc (h.stays (hrest ▸ SameBehind.refl rest)) rfl,
                ih ds.length hshorter huncut' rfl]

/-- **Layout is not observable.** Two source texts whose lines have the same tokens in front of the
comments are both refused, or assembled to the same bytes and the same symbols. Blanks between tokens
never change the tokens. -/
theorem layout_unobservable :
    (∀ (source source' : String) (origin : UInt16), SameCode source source' →
      (∃ ds ds', assemble source origin = .error ds ∧ assemble source' origin = .error ds') ∨
      ∃ P P', assemble source origin = .ok P ∧ assemble source' origin = .ok P' ∧
        P.bytes = P'.bytes ∧
        P.symbols.symbols.map Symbol.entry = P'.symbols.symbols.map Symbol.entry) ∧
    ∀ front blanks back : String, blanks.toList.all isBlank = true →
      UncutAt (byteLength front.toList) (tokenize (front ++ back)) →
      (tokenize (front ++ blanks ++ back)).map Token.face =
        (tokenize (front ++ back)).map Token.face := by
  constructor
  · intro source source' origin h
    rcases (like_assemble (like_of_sameCode h) (fun _ _ t _ => Likeness.layout_knows t.chars)
      origin).results with ⟨P, P', hP, hP', hlike⟩ | ⟨ds, ds', hds, hds', -⟩
    · exact Or.inr ⟨P, P', hP, hP', hlike.bytes, entries_of_like hlike.symbols⟩
    · exact Or.inl ⟨ds, ds', hds, hds'⟩
  · intro front blanks back hall huncut
    unfold tokenize at huncut ⊢
    rw [String.toList_append] at huncut
    rw [String.toList_append, String.toList_append, String.toList_append, List.append_assoc]
    cases hblanks : blanks.toList with
    | nil => rfl
    | cons c cs =>
        rw [hblanks] at hall
        have hc : isBlank c = true := (Bool.and_eq_true_iff.mp hall).1
        exact faces_insert_blanks (by rw [Nat.zero_add]; exact huncut) hall
          (breaks_cons (breaks_of_isBlank hc) _)

theorem layout_unobservable_between_tokens :
    (SameCode "a:ld v0,%1 ;x\njp a" "  a : ld  v0 , %1\njp\ta;y" ∧
      ((∃ ds ds', assemble "a:ld v0,%1 ;x\njp a" 0x200 = .error ds ∧
        assemble "  a : ld  v0 , %1\njp\ta;y" 0x200 = .error ds') ∨
      ∃ P P', assemble "a:ld v0,%1 ;x\njp a" 0x200 = .ok P ∧
        assemble "  a : ld  v0 , %1\njp\ta;y" 0x200 = .ok P' ∧ P.bytes = P'.bytes ∧
        P.symbols.symbols.map Symbol.entry = P'.symbols.symbols.map Symbol.entry)) ∧
    " \t".toList.all isBlank = true ∧
    UncutAt (byteLength "ld v0".toList) (tokenize ("ld v0" ++ ",1")) ∧
    (tokenize ("ld v0" ++ " \t" ++ ",1")).map Token.face =
      (tokenize ("ld v0" ++ ",1")).map Token.face := by
  have hcode : SameCode "a:ld v0,%1 ;x\njp a" "  a : ld  v0 , %1\njp\ta;y" :=
    .cons rfl (.cons rfl .nil)
  have huncut : UncutAt (byteLength "ld v0".toList) (tokenize ("ld v0" ++ ",1")) := by
    decide +kernel
  exact ⟨⟨hcode, layout_unobservable.1 _ _ 0x200 hcode⟩, rfl, huncut,
    layout_unobservable.2 _ _ _ rfl huncut⟩

end Chip8.Asm
