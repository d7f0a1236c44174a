import Chip8.Proofs.Asm.Climbing
import Chip8.Proofs.Asm.Listing

/-! # Reading the body of a line

What the reader makes of operands, instructions and directives, one function after the other: each
does what its counterpart on the tokens of the line does.

* Lists are cut at commas beforehand there (`pieces`, `firstPiece`), and read up to a comma here.
  Behind an operand that is not read completely both stop (`Behind`).
* A reading that is refused leaves the lexer in a place from which the rest of the line can be
  skipped, wherever in the line that is. -/

namespace Chip8.Asm

open Reading (Follows)

namespace Reader

variable {aliases : Aliases} {stop t : Token} {a e l : Lexer} {ts : List Token}

/-! ### Lists -/

/-- What stands in front of a lexer behind a body: the end of the code, or a token that is met
instead. -/
inductive Behind (e : Lexer) (stop : Token) (a : Lexer) : Option Token → Lexer → Prop
  | stop {l : Lexer} (ahead : Ahead stop a [] l) : Behind e stop a none l
  | token {t : Token} {l m : Lexer} (next : l.next = (t, m)) (code : t.kind.endsCode = false)
      (recovers : Recovers e m) : Behind e stop a (some t) l

theorem Behind.recovers {rest : Option Token} (h : Behind e stop a rest l)
    (hedge : Edge e stop a) : Recovers e l := by
  cases h with
  | stop hahead => exact hahead.recovers hedge
  | token hnext hcode hrecovers =>
      exact recovers_next hnext (endsLine_of_endsCode hcode) hrecovers

/-- Behind tokens that are left over comes the first of them. -/
theorem Ahead.behind (h : Ahead stop a ts l) (hedge : Edge e stop a) :
    Behind e stop a ts.head? l := by
  cases h with
  | done hnext => exact .stop (.done hnext)
  | token hnext hcode hrest => exact .token hnext hcode (hrest.recovers hedge)

theorem edge_comma {comma : Token} {b : Lexer} (hcomma : comma.kind = .comma)
    (hb : b.pushed = none) (hrecovers : Recovers e b) : Edge e comma b := by
  refine ⟨Or.inl hcomma, hb, fun hends => ?_, fun _ => hrecovers⟩
  rw [hcomma] at hends
  cases hends

/-- The first comma among tokens. -/
theorem exists_comma (ts : List Token) : (∀ t ∈ ts, t.kind ≠ .comma) ∨
    ∃ us comma vs, ts = us ++ comma :: vs ∧ (∀ t ∈ us, t.kind ≠ .comma) ∧ comma.kind = .comma := by
  induction ts with
  | nil => exact Or.inl fun t ht => absurd ht List.not_mem_nil
  | cons t ts ih =>
      by_cases ht : t.kind = .comma
      · exact Or.inr ⟨[], t, ts, rfl, fun u hu => absurd hu List.not_mem_nil, ht⟩
      · rcases ih with hnone | ⟨us, comma, vs, rfl, hus, hcomma⟩
        · exact Or.inl (List.forall_mem_cons.mpr ⟨ht, hnone⟩)
        · exact Or.inr ⟨t :: us, comma, vs, rfl, List.forall_mem_cons.mpr ⟨ht, hus⟩, hcomma⟩

theorem firstPiece_of_no_comma (h : ∀ t ∈ ts, t.kind ≠ .comma) :
    firstPiece stop ts = (⟨ts, stop⟩, none) := by
  have hfind : ts.find? (·.kind = .comma) = none :=
    List.find?_eq_none.mpr fun t ht => by simp [h t ht]
  rw [firstPiece, hfind]

theorem firstPiece_comma {us vs : List Token} {comma : Token} (h : ∀ t ∈ us, t.kind ≠ .comma)
    (hcomma : comma.kind = .comma) :
    firstPiece stop (us ++ comma :: vs) = (⟨us, comma⟩, some comma) := by
  have hfind : (us ++ comma :: vs).find? (·.kind = .comma) = some comma := by
    rw [List.find?_append, List.find?_eq_none.mpr fun t ht => by simp [h t ht]]
    simp [hcomma]
  have htake : (us ++ comma :: vs).takeWhile (·.kind ≠ .comma) = us := by
    rw [List.takeWhile_append_of_pos fun t ht => decide_eq_true (h t ht)]
    simp [hcomma]
  rw [firstPiece, hfind]
  dsimp only
  rw [htake]

/-- A reading of one operand follows the reading of its tokens, wherever these stop. -/
def ReadsPieces (e : Lexer) (read : Piece → Except Diagnostic (Node × List Token))
    (m : TokenReading Node) : Prop :=
  ∀ (p : Piece) {b l : Lexer}, Edge e p.stop b → (∀ t ∈ p.tokens, t.kind ≠ .comma) →
    Ahead p.stop b p.tokens l →
      Follows (Recovers e) (TreeRead p.stop b p.tokens) (read p) (m.outcome l)

variable {read : Piece → Except Diagnostic (Node × List Token)} {m : TokenReading Node}

theorem follows_single (hread : ReadsPieces e read m) (hedge : Edge e stop a)
    (hahead : Ahead stop a ts l) :
    Follows (Recovers e) (fun x n l' => x.1 = n ∧ Behind e stop a x.2 l')
      (readSingle read stop ts) (m.outcome l) := by
  unfold readSingle
  rcases exists_comma ts with hnone | ⟨us, comma, vs, rfl, hus, hcomma⟩
  · rw [firstPiece_of_no_comma hnone]
    dsimp only
    rcases (hread ⟨ts, stop⟩ hedge hnone hahead).results with
      ⟨⟨n, rest⟩, _, l', hx, hm, rfl, hrest, -⟩ | ⟨d, l', hx, hm, hrecovers⟩
    · rw [hx, hm]
      refine .ok ⟨rfl, ?_⟩
      dsimp only
      rw [Option.or_none]
      exact hrest.behind hedge
    · rw [hx, hm]
      exact .error hrecovers
  · rw [firstPiece_comma hus hcomma]
    obtain ⟨b, hahead', hb, hvs⟩ := hahead.split
    have hedge' := edge_comma hcomma hb (hvs.recovers hedge)
    dsimp only
    rcases (hread ⟨us, comma⟩ hedge' hus hahead').results with
      ⟨⟨n, rest⟩, _, l', hx, hm, rfl, hrest, -⟩ | ⟨d, l', hx, hm, hrecovers⟩
    · rw [hx, hm]
      refine .ok ⟨rfl, ?_⟩
      cases hrest with
      | done hnext =>
          exact .token hnext (by rw [hcomma]; rfl) (hvs.recovers hedge)
      | token hnext hcode hrest => exact .token hnext hcode (hrest.recovers hedge')
    · rw [hx, hm]
      exact .error hrecovers

section Outcomes

variable {n : Node} {l' k : Lexer}

theorem outcome_separated_error {d : Diagnostic} (hm : m.outcome l = some (.error d, l')) :
    m.separated.outcome l = some (.error d, l') := by
  rw [TokenReading.separated]
  exact Reading.outcome_bind_error hm _

theorem outcome_separated_last (hm : m.outcome l = some (.ok n, l')) (hnext : l'.next = (t, k))
    (ht : t.kind ≠ .comma) : m.separated.outcome l = some (.ok [n], k.unread t) := by
  rw [TokenReading.separated, Reading.outcome_bind_ok hm, outcome_next_bind hnext, if_neg ht]
  rfl

theorem outcome_separated_comma (hm : m.outcome l = some (.ok n, l')) (hnext : l'.next = (t, k))
    (ht : t.kind = .comma) :
    m.separated.outcome l = (m.separated >>= fun ns => pure (n :: ns)).outcome k := by
  rw [TokenReading.separated, Reading.outcome_bind_ok hm, outcome_next_bind hnext, if_pos ht,
    ← TokenReading.separated]

end Outcomes

/-- Behind an operand that leaves tokens over, a list ends. -/
theorem outcome_separated_over {p : Piece} {b l' : Lexer} {n : Node} {rest : List Token}
    (hedge : Edge e p.stop b) (hcommas : ∀ u ∈ p.tokens, u.kind ≠ .comma)
    (hm : m.outcome l = some (.ok n, l')) (hrest : Ahead p.stop b (t :: rest) l')
    (hsuffix : t :: rest <:+ p.tokens) :
    ∃ l'', m.separated.outcome l = some (.ok [n], l'') ∧ Behind e stop a (some t) l'' := by
  cases hrest with
  | @token _ _ _ k hnext hcode hrest =>
      have hkind := hcommas t (hsuffix.subset List.mem_cons_self)
      exact ⟨k.unread t, outcome_separated_last hm hnext hkind,
        .token (Lexer.next_unread (Lexer.pushed_next hnext) t) hcode (hrest.recovers hedge)⟩

section Pieces

variable {p : Piece} {ps : List Piece} {n : Node}

theorem readPieces_error {d : Diagnostic} (h : read p = .error d) :
    readPieces read (p :: ps) = .error d := by
  rw [readPieces, h]

theorem readPieces_over {rest : List Token} (h : read p = .ok (n, t :: rest)) :
    readPieces read (p :: ps) = .ok ([n], some t) := by
  rw [readPieces, h]

theorem readPieces_cons (h : read p = .ok (n, [])) :
    readPieces read (p :: ps) = (readPieces read ps).map fun x => (n :: x.1, x.2) := by
  rw [readPieces, h]
  cases readPieces read ps <;> rfl

theorem readPieces_last (h : read p = .ok (n, [])) : readPieces read [p] = .ok ([n], none) :=
  readPieces_cons h

end Pieces

/-- The induction is on the number of tokens: one piece is read at a time. -/
theorem follows_separated (hread : ReadsPieces e read m) (hedge : Edge e stop a)
    (hstop : stop.kind ≠ .comma) (hahead : Ahead stop a ts l) :
    Follows (Recovers e) (fun x ns l' => x.1 = ns ∧ Behind e stop a x.2 l')
      (readPieces read (pieces stop ts)) (m.separated.outcome l) := by
  induction hlength : ts.length using Nat.strongRecOn generalizing ts l with
  | _ length ih =>
      rcases exists_comma ts with hnone | ⟨us, comma, vs, rfl, hus, hcomma⟩
      · rw [pieces_of_no_comma hnone]
        rcases (hread ⟨ts, stop⟩ hedge hnone hahead).results with
          ⟨⟨n, rest⟩, _, l', hx, hm, rfl, hrest, hsuffix⟩ | ⟨d, l', hx, hm, hrecovers⟩
        · cases rest with
          | nil =>
              cases hrest with
              | done hnext =>
                  rw [readPieces_last hx, outcome_separated_last hm hnext hstop]
                  exact .ok ⟨rfl, .stop (.done (Lexer.next_unread hedge.unpushed stop))⟩
          | cons t rest =>
              obtain ⟨l'', hlist, hbehind⟩ :=
                outcome_separated_over hedge hnone hm hrest hsuffix
              rw [readPieces_over hx, hlist]
              exact .ok ⟨rfl, hbehind⟩
        · rw [readPieces_error hx, outcome_separated_error hm]
          exact .error hrecovers
      · rw [pieces_comma hus hcomma]
        obtain ⟨b, hahead', hb, hvs⟩ := hahead.split
        have hedge' := edge_comma hcomma hb (hvs.recovers hedge)
        rcases (hread ⟨us, comma⟩ hedge' hus hahead').results with
          ⟨⟨n, rest⟩, _, l', hx, hm, rfl, hrest, hsuffix⟩ | ⟨d, l', hx, hm, hrecovers⟩
        · cases rest with
          | nil =>
              cases hrest with
              | done hnext =>
                  rw [readPieces_cons hx, outcome_separated_comma hm hnext hcomma]
                  rw [List.length_append, List.length_cons] at hlength
                  refine (ih vs.length (by omega) hvs rfl).map fun x ns l'' hns => ?_
                  obtain ⟨rfl, hbehind⟩ := hns
                  exact ⟨_, rfl, rfl, hbehind⟩
          | cons t rest =>
              obtain ⟨l'', hlist, hbehind⟩ :=
                outcome_separated_over hedge' hus hm hrest hsuffix
              rw [readPieces_over hx, hlist]
              exact .ok ⟨rfl, hbehind⟩
        · rw [readPieces_error hx, outcome_separated_error hm]
          exact .error hrecovers

/-! ### Operands -/

theorem reads_tree : ReadsPieces e (readTree aliases) (nextToken >>= expression aliases) := by
  intro p b l hedge _ hahead
  obtain ⟨t, m, hnext, -, htaken⟩ := hahead.take
  rw [outcome_next_bind hnext]
  exact follows_expression aliases hedge htaken

theorem reads_value : ReadsPieces e (readValue aliases) (singleExpression aliases) := by
  rintro ⟨ts, stop⟩ b l hedge - hahead
  dsimp only at hedge hahead ⊢
  obtain ⟨t, m, hnext, -, htaken⟩ := hahead.take
  have htree := follows_expression aliases hedge htaken
  rw [singleExpression, outcome_next_bind hnext]
  unfold readValue
  cases htaken with
  | done =>
      by_cases hends : stop.kind.endsCode = true
      · rw [if_pos hends, if_pos ⟨rfl, ne_of_endsCode hends rfl⟩]
        exact Taken.done.follows_refuse hedge _
      · have hcomma := hedge.kind.resolve_right hends
        rw [if_neg hends, if_neg fun h => h.2 hcomma]
        exact htree
  | token hcode hrest =>
      rw [if_neg fun h => Bool.false_ne_true h.1, if_neg (ne_true_of_eq_false hcode)]
      exact htree

theorem follows_indexMemory (hedge : Edge e stop a) (hahead : Ahead stop a ts l)
    (bracket : Token) :
    Follows (Recovers e) (TreeRead stop a ts) (bracketOperand stop bracket ts)
      ((indexMemory bracket).outcome l) := by
  obtain ⟨inner, m, hnext, -, htaken⟩ := hahead.take
  rw [indexMemory, outcome_next_bind hnext]
  unfold bracketOperand
  rw [htaken.head]
  dsimp only
  by_cases hindex : inner.kind = .name ∧ Keyword.ofWord? inner.chars = some .index
  · obtain ⟨us, rfl, hus⟩ := htaken.of_kind hedge hindex.1 (by decide) rfl
    obtain ⟨last, m', hnext', -, htaken'⟩ := hus.take
    have hdemand := outcome_demand hnext' .bracketClose "`]`"
    rw [if_pos hindex, if_pos hindex, List.tail_cons, htaken'.head]
    by_cases hclose : last.kind = .bracketClose
    · obtain ⟨vs, rfl, hvs⟩ := htaken'.of_kind hedge hclose (by decide) rfl
      rw [if_pos hclose] at hdemand ⊢
      rw [Reading.outcome_bind_ok hdemand]
      exact .ok ⟨rfl, hvs, (List.suffix_cons last vs).trans (List.suffix_cons inner _)⟩
    · rw [if_neg hclose] at hdemand ⊢
      rw [Reading.outcome_bind_error hdemand]
      exact .error (htaken'.recovers_refused hedge)
  · rw [if_neg hindex, if_neg hindex]
    exact htaken.follows_refuse hedge _

/-- A word is an operand of its own if a comma or the end of the code comes next. -/
theorem follows_word (hedge : Edge e stop a) (hcommas : ∀ u ∈ ts, u.kind ≠ .comma)
    (hrest : Ahead stop a ts l) (hkind : t.kind = .name) :
    Follows (Recovers e) (TreeRead stop a (t :: ts)) (readOperand aliases ⟨t :: ts, stop⟩)
      ((do
        let behind ← peekToken
        if behind.kind = .comma ∨ behind.kind.endsCode then
          MonadExcept.ofExcept (wordOperand aliases t)
        else
          expression aliases t : TokenReading Node).outcome l) := by
  obtain ⟨behind, m, hnext, hm, htaken⟩ := hrest.take
  have hback := htaken.putBack hm
  rw [outcome_peek_bind hnext]
  unfold readOperand
  dsimp only
  cases htaken with
  | done =>
      rw [hkind, if_pos hedge.kind, Reading.outcome_ofExcept]
      dsimp only
      cases wordOperand aliases t with
      | error d => exact .error (hback.recovers hedge)
      | ok n => exact .ok ⟨rfl, hback, List.nil_suffix⟩
  | @token _ us _ hcode hus =>
      have hends : ¬(behind.kind = .comma ∨ behind.kind.endsCode = true) := by
        rintro (h | h)
        · exact hcommas behind List.mem_cons_self h
        · rw [hcode] at h
          cases h
      rw [hkind, if_neg hends]
      exact follows_expression aliases hedge (.token (by rw [hkind]; rfl) hback)

theorem reads_operand : ReadsPieces e (readOperand aliases) (operand aliases) := by
  rintro ⟨ts, stop⟩ b l hedge hcommas hahead
  dsimp only at hedge hcommas hahead ⊢
  obtain ⟨t, m, hnext, -, htaken⟩ := hahead.take
  have htree := follows_expression aliases hedge htaken
  rw [operand, outcome_next_bind hnext]
  cases htaken with
  | done =>
      unfold readOperand
      dsimp only
      rcases hedge.kind with hkind | hkind
      · rw [hkind]
        exact htree
      · cases h : stop.kind <;> first | exact htree | (rw [h] at hkind; cases hkind)
  | @token t ts _ hcode hrest =>
      cases hkind : t.kind with
      | register r =>
          unfold readOperand
          dsimp only
          rw [hkind]
          exact .ok ⟨rfl, hrest, List.suffix_cons t ts⟩
      | bracketOpen =>
          unfold readOperand
          dsimp only
          rw [hkind]
          refine (follows_indexMemory hedge hrest t).imp fun x n l' hx => ?_
          exact ⟨hx.1, hx.2.1, hx.2.2.trans (List.suffix_cons t ts)⟩
      | name =>
          exact follows_word hedge (fun u hu => hcommas u (List.mem_cons_of_mem t hu)) hrest hkind
      | _ =>
          unfold readOperand
          dsimp only
          rw [hkind]
          exact htree

theorem follows_operands (hedge : Edge e stop a) (hstop : stop.kind.endsCode = true)
    (hahead : Ahead stop a ts l) :
    Follows (Recovers e) (fun x ns l' => x.1 = ns ∧ Behind e stop a x.2 l')
      (readOperands aliases stop ts) ((operands aliases).outcome l) := by
  obtain ⟨t, m, hnext, hm, htaken⟩ := hahead.take
  have hback := htaken.putBack hm
  rw [operands, outcome_peek_bind hnext]
  unfold readOperands
  cases htaken with
  | done =>
      rw [if_pos hstop]
      exact .ok ⟨rfl, .stop hback⟩
  | token hcode hrest =>
      rw [List.isEmpty_cons, if_neg Bool.false_ne_true, if_neg (ne_true_of_eq_false hcode)]
      exact follows_separated reads_operand hedge (ne_of_endsCode hstop rfl) hback

/-! ### Instructions and directives -/

theorem follows_instruction (hedge : Edge e stop a) (hstop : stop.kind.endsCode = true)
    (hahead : Ahead stop a ts l) (mnemonic : Token) :
    Follows (Recovers e) (fun x b l' => x.1 = b ∧ Behind e stop a x.2 l')
      (readInstruction aliases stop mnemonic ts) ((instruction aliases mnemonic).outcome l) := by
  unfold readInstruction instruction
  by_cases hmnemonic : isMnemonic mnemonic.chars = true
  · rw [if_pos hmnemonic, if_pos hmnemonic]
    refine (follows_operands hedge hstop hahead).bind fun x ns l' hx => ?_
    obtain ⟨ns, rest⟩ := x
    obtain ⟨rfl, hbehind⟩ := hx
    refine (Follows.ofExcept (hbehind.recovers hedge) _).bind fun form _ _ hform => ?_
    obtain ⟨rfl, rfl⟩ := hform
    exact .ok ⟨rfl, hbehind⟩
  · rw [if_neg hmnemonic, if_neg hmnemonic]
    exact .error (hahead.recovers hedge)

theorem follows_constant (hedge : Edge e stop a) (hstop : stop.kind.endsCode = true)
    (hahead : Ahead stop a ts l) (scope : Scope) :
    Follows (Recovers e) (fun x y l' => x.1 = y.1 ∧ x.2.1 = y.2 ∧ Behind e stop a x.2.2 l')
      (readConstant scope stop ts) ((constant scope).outcome l) := by
  unfold readConstant constant
  refine (follows_demand hedge hahead (ne_of_endsCode hstop rfl) _).bind
    fun x _ l₁ hx => ?_
  obtain ⟨t, us⟩ := x
  obtain ⟨rfl, -, -, hus⟩ := hx
  refine (Follows.ofExcept (hus.recovers hedge) _).bind fun name _ _ hname => ?_
  obtain ⟨rfl, rfl⟩ := hname
  refine (follows_demand hedge hus (ne_of_endsCode hstop rfl) _).bind fun x _ l₂ hx => ?_
  obtain ⟨comma, vs⟩ := x
  obtain ⟨rfl, -, -, hvs⟩ := hx
  dsimp only
  rw [← bind_assoc]
  refine (follows_single reads_tree hedge hvs).bind fun x _ l₃ hx => ?_
  obtain ⟨value, rest⟩ := x
  obtain ⟨rfl, hbehind⟩ := hx
  refine (Follows.ofExcept (hbehind.recovers hedge) _).bind fun scope' _ _ hscope => ?_
  obtain ⟨rfl, rfl⟩ := hscope
  exact .ok ⟨rfl, rfl, hbehind⟩

theorem follows_registerAlias (hedge : Edge e stop a) (hstop : stop.kind.endsCode = true)
    (hahead : Ahead stop a ts l) (scope : Scope) :
    Follows (Recovers e) (fun x scope' l' => x.1 = scope' ∧ Behind e stop a x.2 l')
      (readAlias scope stop ts) ((registerAlias scope).outcome l) := by
  unfold readAlias registerAlias
  refine (follows_demand hedge hahead (ne_of_endsCode hstop rfl) _).bind
    fun x _ l₁ hx => ?_
  obtain ⟨t, us⟩ := x
  obtain ⟨rfl, -, -, hus⟩ := hx
  refine (Follows.ofExcept (hus.recovers hedge) _).bind fun name _ _ hname => ?_
  obtain ⟨rfl, rfl⟩ := hname
  dsimp only
  by_cases hkeyword : (Keyword.ofWord? t.chars).isSome = true
  · rw [if_pos hkeyword, if_pos hkeyword]
    exact .error (hus.recovers hedge)
  · rw [if_neg hkeyword, if_neg hkeyword]
    refine (follows_demand hedge hus (ne_of_endsCode hstop rfl) _).bind fun x _ l₂ hx => ?_
    obtain ⟨comma, vs⟩ := x
    obtain ⟨rfl, -, -, hvs⟩ := hx
    obtain ⟨r, m, hnext, -, htaken⟩ := hvs.take
    dsimp only
    rw [outcome_next_bind hnext, htaken.head]
    cases hkind : r.kind with
    | register number =>
        obtain ⟨ws, rfl, hws⟩ := htaken.of_kind hedge hkind TokenKind.noConfusion rfl
        dsimp only
        by_cases hdefined : (scope.aliases.get? name).isSome = true
        · rw [if_pos hdefined, if_pos hdefined]
          exact .error (hws.recovers hedge)
        · rw [if_neg hdefined, if_neg hdefined]
          exact .ok ⟨rfl, hws.behind hedge⟩
    | _ => exact htaken.follows_refuse hedge _

theorem follows_only (hedge : Edge e stop a) (hahead : Ahead stop a ts l) (scope : Scope)
    (make : Node → Body) :
    Follows (Recovers e) (fun x y l' => x.1 = y.1 ∧ x.2.1 = y.2 ∧ Behind e stop a x.2.2 l')
      ((readOnly scope.aliases stop make ts).map (scope, ·))
      ((do
        let n ← singleExpression scope.aliases
        return (scope, some (make n)) : TokenReading (Scope × Option Body)).outcome l) := by
  have hmap : (readOnly scope.aliases stop make ts).map (scope, ·) =
      (readSingle (readValue scope.aliases) stop ts).map
        fun x => (scope, some (make x.1), x.2) := by
    unfold readOnly
    cases readSingle (readValue scope.aliases) stop ts <;> rfl
  rw [hmap]
  refine (follows_single reads_value hedge hahead).map fun x n l' hx => ?_
  exact ⟨_, rfl, rfl, congrArg (fun n => some (make n)) hx.1, hx.2⟩

theorem follows_all (hedge : Edge e stop a) (hstop : stop.kind.endsCode = true)
    (hahead : Ahead stop a ts l) (scope : Scope) (make : List Node → Body) :
    Follows (Recovers e) (fun x y l' => x.1 = y.1 ∧ x.2.1 = y.2 ∧ Behind e stop a x.2.2 l')
      ((readAll scope.aliases stop make ts).map (scope, ·))
      ((do
        let ns ← (singleExpression scope.aliases).separated
        return (scope, some (make ns)) : TokenReading (Scope × Option Body)).outcome l) := by
  have hmap : (readAll scope.aliases stop make ts).map (scope, ·) =
      (readPieces (readValue scope.aliases) (pieces stop ts)).map
        fun x => (scope, some (make x.1), x.2) := by
    unfold readAll
    cases readPieces (readValue scope.aliases) (pieces stop ts) <;> rfl
  rw [hmap]
  refine (follows_separated reads_value hedge (ne_of_endsCode hstop rfl) hahead).map
    fun x ns l' hx => ?_
  exact ⟨_, rfl, rfl, congrArg (fun ns => some (make ns)) hx.1, hx.2⟩

theorem follows_directive (hedge : Edge e stop a) (hstop : stop.kind.endsCode = true)
    (hahead : Ahead stop a ts l) (scope : Scope) (name : Token) :
    Follows (Recovers e) (fun x y l' => x.1 = y.1 ∧ x.2.1 = y.2 ∧ Behind e stop a x.2.2 l')
      (readDirective scope stop name ts) ((directive scope name).outcome l) := by
  unfold readDirective directive
  cases Directive.ofToken? name with
  | none => exact .error (hahead.recovers hedge)
  | some d =>
      cases d with
      | constant =>
          refine (follows_constant hedge hstop hahead scope).map fun x y l' hx => ?_
          exact ⟨_, rfl, hx.1, congrArg some hx.2.1, hx.2.2⟩
      | registerAlias =>
          refine (follows_registerAlias hedge hstop hahead scope).map fun x scope' l' hx => ?_
          exact ⟨_, rfl, hx.1, rfl, hx.2⟩
      | origin => exact follows_only hedge hahead scope .origin
      | bytes => exact follows_all hedge hstop hahead scope .bytes
      | words => exact follows_all hedge hstop hahead scope .words
      | reserve => exact follows_only hedge hahead scope .reserve

end Reader

end Chip8.Asm
