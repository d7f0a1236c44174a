import Chip8.Proofs.Asm.Standing

/-! # Tiling

Tokens tile the source: nothing is lost between them but blanks, and nothing is read twice.

* **Steps.** `NextIn` says of a token that it is the next one behind an offset. A lexer that holds
  no token delivers this token, whether it keeps blanks or not (`nextIn_next`).
* **Runs.** `Tiles` says of deliveries that each is the next one behind the one before. What is
  drained from a lexer are the tokens of the source (`drain_placed`), and these tile it with blanks
  behind them (`tiles_tokensFrom`).
* **Sources.** In other words, tokens have places in the source, one behind the other, and each
  character outside of them is a blank (`Tiles.covers`).
* **Sessions.** A `Session` keeps a log of what a lexer delivers: tokens are taken, looked at and
  given back, and blanks are kept or not. Where a token is delivered once more it is the one that
  was delivered last, and all others tile the source (`Sees.perform`, `sees_run`). -/

namespace Chip8.Asm

variable {source cs : List Char} {offset lo hi : Nat} {keeps : Bool} {t : Token}

/-! ### Steps -/

/-- The token is the next one of the source behind an offset: blanks stand in front of it, none if
blanks are tokens, and then its characters. Behind the end of the file nothing is left. -/
def NextIn (source : List Char) (offset : Nat) (keeps : Bool) (t : Token) : Prop :=
  ∃ gap rest, Stands source offset (gap ++ (t.chars ++ rest)) ∧
    (∀ c ∈ gap, isBlank c = true) ∧ (keeps = true → gap = []) ∧
    t.span = ⟨offset + byteLength gap, byteLength t.chars⟩ ∧
    (t.chars = [] → t.kind = .endOfFile ∧ rest = [])

/-- A token is a part of the text, at least one character long. -/
theorem exists_scan (keeps : Bool) (c : Char) (cs : List Char) :
    ∃ kind taken rest, cs = taken ++ rest ∧
      (if keeps then Lexeme.scanText c cs else Lexeme.scan c cs) = ⟨kind, c :: taken, rest⟩ := by
  have hrun : ∀ kind p, ∃ kind' taken rest, cs = taken ++ rest ∧
      Lexeme.run kind p c cs = ⟨kind', c :: taken, rest⟩ := fun kind p =>
    ⟨kind, cs.takeWhile p, cs.dropWhile p, List.takeWhile_append_dropWhile.symm, rfl⟩
  cases keeps with
  | false =>
      obtain ⟨kind, taken, rest, h⟩ := Lexeme.looksAhead_scan c cs
      exact ⟨kind, taken, rest, h.split, h.reads⟩
  | true =>
      rw [if_pos rfl, Lexeme.scanText]
      split
      · exact ⟨_, [], cs, rfl, rfl⟩
      · split
        · exact hrun _ _
        · exact hrun _ _

/-- What is read at an offset are the first characters of what is left. -/
theorem readAt_stands (h : Stands source offset cs) (keeps : Bool) :
    ∃ t rest, Lexer.readAt keeps ⟨source, offset⟩ = (t, ⟨source, t.span.stop⟩) ∧
      cs = t.chars ++ rest ∧ t.span = ⟨offset, byteLength t.chars⟩ ∧
      (t.chars = [] → t.kind = .endOfFile ∧ rest = []) := by
  have hrest : (⟨source, offset⟩ : Cursor).rest = cs := h.dropBytes
  unfold Lexer.readAt
  rw [hrest]
  cases cs with
  | nil => exact ⟨⟨.endOfFile, [], ⟨offset, 0⟩⟩, [], rfl, rfl, rfl, fun _ => ⟨rfl, rfl⟩⟩
  | cons c cs =>
      obtain ⟨kind, taken, rest, hsplit, hscan⟩ := exists_scan keeps c cs
      dsimp only
      rw [hscan]
      refine ⟨⟨kind, c :: taken, ⟨offset, byteLength (c :: taken)⟩⟩, rest, rfl, ?_, rfl, ?_⟩
      · rw [hsplit]
        rfl
      · intro hnil
        cases hnil

/-- **A lexer delivers the next token** of the source and stands behind it. -/
theorem nextIn_next (h : Stands source offset cs) (keeps : Bool) :
    ∃ t, (⟨⟨source, offset⟩, none, keeps⟩ : Lexer).next =
        (t, ⟨⟨source, t.span.stop⟩, none, keeps⟩) ∧ NextIn source offset keeps t := by
  have hrest : (⟨source, offset⟩ : Cursor).rest = cs := h.dropBytes
  obtain ⟨gap, more, hcs, hblank, hgap, hstart⟩ : ∃ gap more, cs = gap ++ more ∧
      (∀ c ∈ gap, isBlank c = true) ∧ (keeps = true → gap = []) ∧
      (if keeps then (⟨source, offset⟩ : Cursor) else
        ((⟨source, offset⟩ : Cursor).takeWhile isBlank).2) =
          ⟨source, offset + byteLength gap⟩ := by
    cases keeps with
    | true => exact ⟨[], cs, rfl, by simp, fun _ => rfl, rfl⟩
    | false =>
        refine ⟨cs.takeWhile isBlank, cs.dropWhile isBlank,
          List.takeWhile_append_dropWhile.symm, ?_, nofun, ?_⟩
        · intro c hc
          exact List.mem_takeWhile_imp hc
        · rw [if_neg Bool.false_ne_true, Cursor.takeWhile, hrest]
          rfl
  subst hcs
  obtain ⟨t, rest, hread, hmore, hspan, hend⟩ := readAt_stands h.advance keeps
  refine ⟨t, ?_, gap, rest, hmore ▸ h, hblank, hgap, hspan, hend⟩
  unfold Lexer.next
  dsimp only
  rw [hstart, hread]

theorem NextIn.start_le (h : NextIn source offset keeps t) : offset ≤ t.span.start := by
  obtain ⟨gap, rest, _, _, _, hspan, _⟩ := h
  rw [hspan]
  exact Nat.le_add_right _ _

theorem NextIn.stands_stop (h : NextIn source offset keeps t) :
    ∃ rest, Stands source t.span.stop rest := by
  obtain ⟨gap, rest, hstands, _, _, hspan, _⟩ := h
  refine ⟨rest, ?_⟩
  rw [hspan]
  exact hstands.advance.advance

/-! ### Runs -/

/-- A token that a lexer delivers. -/
structure Delivery where
  token : Token
  /-- Whether blanks are kept. -/
  keeps : Bool
  /-- Whether the token was delivered and given back before. -/
  again : Bool
deriving DecidableEq, Repr

/-- The deliveries are the next ones of the source from one offset to another. -/
def Tiles (source : List Char) : Nat → List Delivery → Nat → Prop
  | lo, [], hi => lo = hi
  | lo, d :: ds, hi => NextIn source lo d.keeps d.token ∧ Tiles source d.token.span.stop ds hi

theorem Tiles.snoc {ds : List Delivery} {d : Delivery} (h : Tiles source lo ds hi)
    (hd : NextIn source hi d.keeps d.token) : Tiles source lo (ds ++ [d]) d.token.span.stop := by
  induction ds generalizing lo with
  | nil =>
      cases h
      exact ⟨hd, rfl⟩
  | cons e ds ih => exact ⟨h.1, ih h.2⟩

/-- A token that was not delivered before, to a reader that keeps no blanks. -/
def Delivery.first (t : Token) : Delivery := ⟨t, false, false⟩

theorem kind_of_mem_tokensFrom (ht : t ∈ tokensFrom 0 offset cs) : t.kind ≠ .endOfFile := by
  obtain ⟨c, _, ds, hkind, _⟩ := scan_of_mem_tokensFrom ht
  intro hend
  have hscan : (Lexeme.scan c ds).kind = .endOfFile := hkind.symm.trans hend
  have hends : (Lexeme.scan c ds).kind.endsCode = true := by
    rw [hscan]
    rfl
  rcases Lexeme.char_of_endsCode_scan c ds hends with rfl | ⟨_, hmark⟩
  · cases hscan
  · rw [hscan] at hmark
    cases hmark

/-- **What is drained from a lexer** are the tokens of what is left. -/
theorem drain_placed (h : Stands source offset cs) :
    (Lexer.placed source offset).drain = some (tokensFrom 0 offset cs) := by
  refine Reader.delivered (P := fun ts l => (∀ t ∈ ts, t.kind ≠ .endOfFile) → l.drain = some ts)
    h rfl ?_ ?_ ?_
  · intro l hnext _
    rw [Lexer.drain, hnext]
    rfl
  · intro t ts l m hnext hrest hkinds
    obtain ⟨hkind, hkinds⟩ := List.forall_mem_cons.mp hkinds
    rw [Lexer.drain, hnext]
    simp [hkind, hrest hkinds]
  · intro t ht
    exact kind_of_mem_tokensFrom ht

/-- The first of all tokens that are left, or the end of the file. -/
theorem tokensFrom_cases (h : Stands source offset cs) :
    ∃ t, NextIn source offset false t ∧
      (tokensFrom 0 offset cs = [] ∧ t.chars = [] ∨ ∃ rest, Stands source t.span.stop rest ∧
        tokensFrom 0 offset cs = t :: tokensFrom 0 t.span.stop rest) := by
  obtain ⟨t, hnext, hall⟩ := Lexer.next_placed h
  obtain ⟨u, hnext', hin⟩ := nextIn_next h false
  obtain rfl : u = t := congrArg Prod.fst (hnext'.symm.trans hnext)
  refine ⟨u, hin, ?_⟩
  rcases hall with hall | ⟨rest, hall, hrest⟩
  · have hlast : tokensFrom 0 offset cs ++ [⟨.endOfFile, [], ⟨offset + byteLength cs, 0⟩⟩] =
        [] ++ [u] := hall
    obtain ⟨hnil, hend⟩ := List.append_inj' hlast rfl
    refine .inl ⟨hnil, ?_⟩
    rw [← (List.cons.inj hend).1]
  · have hmore : tokensFrom 0 offset cs ++ [⟨.endOfFile, [], ⟨offset + byteLength cs, 0⟩⟩] =
        (u :: tokensFrom 0 u.span.stop rest) ++
          [⟨.endOfFile, [], ⟨u.span.stop + byteLength rest, 0⟩⟩] := hall
    exact .inr ⟨rest, hrest, (List.append_inj' hmore rfl).1⟩

/-- **Tokens tile** what is left, with blanks behind them. -/
theorem tiles_tokensFrom (h : Stands source offset cs) :
    ∃ stop gap, Tiles source offset ((tokensFrom 0 offset cs).map .first) stop ∧
      Stands source stop gap ∧ ∀ c ∈ gap, isBlank c = true := by
  induction hts : tokensFrom 0 offset cs generalizing offset cs with
  | nil =>
      obtain ⟨t, ⟨gap, rest, hstands, hblank, _, _, hend⟩, hfirst⟩ := tokensFrom_cases h
      rcases hfirst with ⟨_, hchars⟩ | ⟨rest, _, hcons⟩
      · obtain ⟨_, hrest⟩ := hend hchars
        rw [hchars, hrest, List.append_nil, List.append_nil] at hstands
        exact ⟨offset, gap, rfl, hstands, hblank⟩
      · rw [hts] at hcons
        cases hcons
  | cons u ts ih =>
      obtain ⟨t, hin, hfirst⟩ := tokensFrom_cases h
      rcases hfirst with ⟨hnil, _⟩ | ⟨rest, hrest, hcons⟩
      · rw [hts] at hnil
        cases hnil
      · rw [hts] at hcons
        obtain ⟨rfl, hmore⟩ := List.cons.inj hcons
        obtain ⟨stop, gap, htiles, hgap⟩ := ih hrest hmore.symm
        exact ⟨stop, gap, ⟨hin, htiles⟩, hgap⟩

/-! ### Sources -/

theorem Tiles.le {ds : List Delivery} (h : Tiles source lo ds hi) : lo ≤ hi := by
  induction ds generalizing lo with
  | nil => exact Nat.le_of_eq h
  | cons d ds ih =>
      have hstart := h.1.start_le
      have hrest := ih h.2
      unfold Span.stop at hrest
      omega

theorem Tiles.le_start {ds : List Delivery} (h : Tiles source lo ds hi) :
    ∀ d ∈ ds, lo ≤ d.token.span.start := by
  induction ds generalizing lo with
  | nil =>
      intro d hd
      cases hd
  | cons d ds ih =>
      have hstart := h.1.start_le
      rw [List.forall_mem_cons]
      refine ⟨hstart, ?_⟩
      intro e he
      have hrest := ih h.2 e he
      unfold Span.stop at hrest
      omega

/-- Each token begins behind the ones in front of it. -/
theorem Tiles.ordered {ds : List Delivery} (h : Tiles source lo ds hi) :
    (ds.map Delivery.token).Pairwise fun t u => t.span.stop ≤ u.span.start := by
  induction ds generalizing lo with
  | nil => exact List.Pairwise.nil
  | cons d ds ih =>
      rw [List.map_cons, List.pairwise_cons]
      refine ⟨?_, ih h.2⟩
      intro t ht
      obtain ⟨e, he, rfl⟩ := List.mem_map.mp ht
      exact h.2.le_start e he

/-- A token has a place in the source. -/
theorem Tiles.exists_place {ds : List Delivery} (h : Tiles source lo ds hi) :
    ∀ d ∈ ds, ∃ front back, source = front ++ d.token.chars ++ back ∧
      d.token.span = ⟨byteLength front, byteLength d.token.chars⟩ := by
  induction ds generalizing lo with
  | nil =>
      intro d hd
      cases hd
  | cons d ds ih =>
      rw [List.forall_mem_cons]
      refine ⟨?_, ih h.2⟩
      obtain ⟨gap, rest, ⟨front, hsource, hoffset⟩, _, _, hspan, _⟩ := h.1
      refine ⟨front ++ gap, rest, ?_, ?_⟩
      · rw [hsource, List.append_assoc, List.append_assoc]
      · rw [hspan, byteLength_append, hoffset]

/-- A character that stands neither in front of a part of the source nor behind it is in it. -/
theorem mem_part {front back part rest : List Char} {c : Char} (h : Stands source lo (part ++ rest))
    (hsource : source = front ++ c :: back) (hge : lo ≤ byteLength front)
    (hlt : byteLength front < lo + byteLength part) :
    c ∈ part ∧ byteLength front + c.utf8Size ≤ lo + byteLength part := by
  have hpos := c.utf8Size_pos
  obtain ⟨before, hbefore, rfl⟩ := h
  rw [hsource] at hbefore
  obtain ⟨inner, rfl, hinner⟩ : ∃ inner, front = before ++ inner ∧
      part ++ rest = inner ++ c :: back := by
    rcases List.append_eq_append_iff.mp hbefore with ⟨more, rfl, hmore⟩ | ⟨inner, rfl, hinner⟩
    · cases more with
      | nil => exact ⟨[], by simp, hmore.symm⟩
      | cons d ds =>
          obtain ⟨rfl, _⟩ := List.cons.inj hmore
          simp only [byteLength_append, byteLength_cons] at hge
          omega
    · exact ⟨inner, rfl, hinner⟩
  rw [byteLength_append] at hlt ⊢
  rcases List.append_eq_append_iff.mp hinner with ⟨more, rfl, _⟩ | ⟨more, rfl, hmore⟩
  · rw [byteLength_append] at hlt
    omega
  · cases more with
    | nil =>
        rw [List.append_nil] at hlt
        omega
    | cons d ds =>
        obtain ⟨rfl, _⟩ := List.cons.inj hmore
        simp only [byteLength_append, byteLength_cons]
        refine ⟨by simp, ?_⟩
        omega

/-- Each character is a blank or in a token. -/
theorem Tiles.covers {ds : List Delivery} (h : Tiles source lo ds hi) {front back : List Char}
    {c : Char} (hsource : source = front ++ c :: back) (hge : lo ≤ byteLength front)
    (hlt : byteLength front < hi) :
    isBlank c = true ∨ ∃ d ∈ ds, d.token.span.start ≤ byteLength front ∧
      byteLength front + c.utf8Size ≤ d.token.span.stop := by
  induction ds generalizing lo with
  | nil =>
      have hnone : lo = hi := h
      omega
  | cons d ds ih =>
      obtain ⟨⟨gap, rest, hstands, hblank, _, hspan, _⟩, hds⟩ := h
      have hstop : d.token.span.stop = lo + byteLength gap + byteLength d.token.chars := by
        rw [hspan]
        rfl
      by_cases hgap : byteLength front < lo + byteLength gap
      · exact .inl (hblank c (mem_part hstands hsource hge hgap).1)
      · by_cases htoken : byteLength front < d.token.span.stop
        · obtain ⟨_, hend⟩ := mem_part hstands.advance hsource (by omega) (hstop ▸ htoken)
          refine .inr ⟨d, List.mem_cons_self, ?_, hstop ▸ hend⟩
          rw [hspan]
          exact Nat.le_of_not_lt hgap
        · rcases ih hds (by omega) with hc | ⟨e, he, hinside⟩
          · exact .inl hc
          · exact .inr ⟨e, List.mem_cons_of_mem d he, hinside⟩

/-- The tokens have places in the source, one behind the other, and what is outside of them are
blanks. The ends of lines are tokens of their own. -/
structure TilesSource (source : List Char) (ts : List Token) : Prop where
  nonempty : ∀ t ∈ ts, t.chars ≠ []
  place : ∀ t ∈ ts, ∃ front back, source = front ++ t.chars ++ back ∧
    t.span = ⟨byteLength front, byteLength t.chars⟩
  ordered : ts.Pairwise fun t u => t.span.stop ≤ u.span.start
  covers : ∀ front c back, source = front ++ c :: back → isBlank c = true ∨
    ∃ t ∈ ts, t.span.start ≤ byteLength front ∧ byteLength front + c.utf8Size ≤ t.span.stop
  newline : ∀ front back, source = front ++ '\n' :: back →
    ⟨.newline, ['\n'], ⟨byteLength front, 1⟩⟩ ∈ ts

theorem tilesSource_tokensFrom (source : List Char) :
    TilesSource source (tokensFrom 0 0 source) := by
  obtain ⟨stop, gap, htiles, hgap, hblank⟩ := tiles_tokensFrom (stands_start source)
  have hfirst : ∀ t ∈ tokensFrom 0 0 source,
      Delivery.first t ∈ (tokensFrom 0 0 source).map Delivery.first := fun t ht =>
    List.mem_map_of_mem ht
  constructor
  · intro t ht
    obtain ⟨c, _, ds, _, hchars⟩ := scan_of_mem_tokensFrom ht
    obtain ⟨kind, taken, rest, _, hscan⟩ := exists_scan false c ds
    rw [if_neg Bool.false_ne_true] at hscan
    rw [hchars, hscan]
    exact List.cons_ne_nil c taken
  · intro t ht
    exact htiles.exists_place _ (hfirst t ht)
  · have hordered := htiles.ordered
    rw [List.map_map] at hordered
    simpa [Function.comp_def, Delivery.first] using hordered
  · intro front c back hsource
    by_cases hlt : byteLength front < stop
    · rcases htiles.covers hsource (Nat.zero_le _) hlt with hc | ⟨d, hd, hinside⟩
      · exact .inl hc
      · obtain ⟨t, ht, rfl⟩ := List.mem_map.mp hd
        exact .inr ⟨t, ht, hinside⟩
    · have hend : Stands source stop (gap ++ []) := by rwa [List.append_nil]
      have hlength : byteLength front < stop + byteLength gap := by
        obtain ⟨before, hbefore, rfl⟩ := hgap
        have htotal := congrArg byteLength (hsource.symm.trans hbefore)
        simp only [byteLength_append, byteLength_cons] at htotal
        have hpos := c.utf8Size_pos
        omega
      exact .inl (hblank c (mem_part hend hsource (Nat.le_of_not_lt hlt) hlength).1)
  · intro front back hsource
    rw [hsource, tokensFrom_append 0 front (breaks_cons rfl back), Nat.zero_add]
    exact List.mem_append_right _ List.mem_cons_self

/-! ### Sessions -/

/-- What is done with a lexer. -/
inductive LexerAct where
  | take
  | look
  /-- Give back the token that the act before took. -/
  | giveBack
  | keepBlanks (keep : Bool)
deriving DecidableEq, Repr

/-- A lexer in use. -/
structure Session where
  lexer : Lexer
  /-- What has been delivered so far, in order. -/
  log : List Delivery
  /-- Whether the last token is given back and was not taken since. -/
  held : Bool
  /-- The token that may be given back, which the last act took. -/
  recent : Option Token

namespace Session

def start (source : String) : Session := ⟨.ofText source, [], false, none⟩

/-- The log behind a delivery. -/
def logged (s : Session) (t : Token) : List Delivery :=
  s.log ++ [⟨t, s.lexer.keepsBlanks, s.held⟩]

/-- The session behind an act. Only a token that was just taken may be given back. -/
def perform (s : Session) : LexerAct → Option Session
  | .take =>
      let (t, l) := s.lexer.next
      some ⟨l, s.logged t, false, some t⟩
  | .look =>
      let (t, l) := s.lexer.peek
      some ⟨l, s.logged t, true, none⟩
  | .giveBack => s.recent.map fun t => ⟨s.lexer.unread t, s.log, true, none⟩
  | .keepBlanks keep => some { s with lexer := s.lexer.keepBlanks keep, recent := none }

/-- The session behind some acts, if all of them may be done. -/
def run (s : Session) (acts : List LexerAct) : Option Session := acts.foldlM perform s

/-- The deliveries without those of a token that was given back. -/
def counted (s : Session) : List Delivery := s.log.filter fun d => !d.again

end Session

/-- A token that is delivered once more is the one that was delivered just before. -/
def Echoes (log : List Delivery) : Prop :=
  ∀ before d after, log = before ++ d :: after → d.again = true →
    ∃ e ∈ before.getLast?, e.token = d.token

theorem Echoes.snoc {log : List Delivery} {d : Delivery} (h : Echoes log)
    (hd : d.again = true → ∃ e ∈ log.getLast?, e.token = d.token) : Echoes (log ++ [d]) := by
  intro before e after hlog hagain
  rcases List.eq_nil_or_concat after with rfl | ⟨init, last, rfl⟩
  · obtain ⟨rfl, hlast⟩ := List.append_inj' hlog rfl
    obtain rfl := (List.cons.inj hlast).1
    exact hd hagain
  · have hlog' : log ++ [d] = (before ++ e :: init) ++ [last] := by simpa using hlog
    exact h before e init (List.append_inj' hlog' rfl).1 hagain

namespace Session

/-- What a session has seen of the source: deliveries that tile it up to the place of the lexer,
some of them once more. A token that is held is the last one. -/
structure Sees (s : Session) (source : List Char) : Prop where
  place : ∃ offset rest, s.lexer.cursor = ⟨source, offset⟩ ∧ Stands source offset rest ∧
    Tiles source 0 s.counted offset
  echoes : Echoes s.log
  held : s.held = true → ∃ d ∈ s.log.getLast?, s.lexer.pushed = some d.token
  free : s.held = false → s.lexer.pushed = none
  recent : ∀ t ∈ s.recent, s.held = false ∧ ∃ d ∈ s.log.getLast?, d.token = t

variable {s s' : Session} {act : LexerAct} {acts : List LexerAct}

theorem sees_start (source : String) : (start source).Sees source.toList where
  place := ⟨0, source.toList, rfl, stands_start _, rfl⟩
  echoes := by
    intro before d after hlog
    exact absurd hlog.symm (List.append_ne_nil_of_right_ne_nil _ (List.cons_ne_nil d after))
  held := nofun
  free _ := rfl
  recent := by
    intro t ht
    cases ht

/-- The session that has just taken the next token. -/
def taken (s : Session) : Session :=
  ⟨s.lexer.next.2, s.logged s.lexer.next.1, false, some s.lexer.next.1⟩

/-- The session that has given a token back. -/
def givenBack (s : Session) (t : Token) : Session := ⟨s.lexer.unread t, s.log, true, none⟩

theorem getLast?_logged (s : Session) (t : Token) :
    ⟨t, s.lexer.keepsBlanks, s.held⟩ ∈ (s.logged t).getLast? := by
  simp [logged]

/-- A delivery counts unless the token was held. -/
theorem counted_taken (s : Session) :
    s.taken.counted = s.counted ++
      if s.held then [] else [⟨s.lexer.next.1, s.lexer.keepsBlanks, false⟩] := by
  unfold counted taken logged
  rw [List.filter_append]
  cases s.held with
  | true => rfl
  | false => rfl

theorem Sees.taken (h : s.Sees source) : s.taken.Sees source := by
  have hlast := getLast?_logged s s.lexer.next.1
  have hcounted := counted_taken s
  have hrecent : ∀ t ∈ s.taken.recent, s.taken.held = false ∧
      ∃ d ∈ s.taken.log.getLast?, d.token = t := by
    intro t ht
    cases ht
    exact ⟨rfl, _, hlast, rfl⟩
  obtain ⟨offset, rest, hcursor, hstands, htiles⟩ := h.place
  cases hheld : s.held with
  | true =>
      -- The token that is held comes once more, and the lexer stays where it is.
      obtain ⟨d, hd, hpushed⟩ := h.held hheld
      have hnext : s.lexer.next = (d.token, { s.lexer with pushed := none }) := by
        rw [Lexer.next, hpushed]
      refine ⟨⟨offset, rest, ?_, hstands, ?_⟩, ?_, nofun, ?_, hrecent⟩
      · rw [Session.taken, hnext]
        exact hcursor
      · rw [hcounted, hheld, if_pos rfl, List.append_nil]
        exact htiles
      · apply h.echoes.snoc
        intro _
        exact ⟨d, hd, by rw [hnext]⟩
      · intro _
        rw [Session.taken, hnext]
  | false =>
      have hlexer : s.lexer = ⟨⟨source, offset⟩, none, s.lexer.keepsBlanks⟩ := by
        rw [← hcursor, ← h.free hheld]
      obtain ⟨t, hnext, hin⟩ := nextIn_next hstands s.lexer.keepsBlanks
      rw [← hlexer] at hnext
      obtain ⟨later, hlater⟩ := hin.stands_stop
      refine ⟨⟨t.span.stop, later, ?_, hlater, ?_⟩, ?_, nofun, ?_, hrecent⟩
      · rw [Session.taken, hnext]
      · rw [hcounted, hheld, if_neg Bool.false_ne_true, hnext]
        exact htiles.snoc hin
      · apply h.echoes.snoc
        intro hagain
        rw [hheld] at hagain
        cases hagain
      · intro _
        rw [Session.taken, hnext]

theorem Sees.givenBack {t : Token} (h : s.Sees source) (ht : t ∈ s.recent) :
    (s.givenBack t).Sees source where
  place := h.place
  echoes := h.echoes
  held _ := by
    obtain ⟨_, d, hd, rfl⟩ := h.recent t ht
    exact ⟨d, hd, rfl⟩
  free := nofun
  recent := by
    intro u hu
    cases hu

theorem Sees.keepBlanks (h : s.Sees source) (keep : Bool) :
    ({ s with lexer := s.lexer.keepBlanks keep, recent := none } : Session).Sees source where
  place := h.place
  echoes := h.echoes
  held := h.held
  free := h.free
  recent := by
    intro u hu
    cases hu

/-- **An act** sees on. -/
theorem Sees.perform (h : s.Sees source) (hact : s.perform act = some s') : s'.Sees source := by
  cases act with
  | take =>
      cases hact
      exact h.taken
  | look =>
      cases hact
      exact h.taken.givenBack (Option.mem_some_self _)
  | giveBack =>
      obtain ⟨t, ht, rfl⟩ := Option.map_eq_some_iff.mp hact
      exact h.givenBack ht
  | keepBlanks keep =>
      cases hact
      exact h.keepBlanks keep

/-- **A run** of acts does so as well. -/
theorem Sees.run (h : s.Sees source) (hrun : s.run acts = some s') : s'.Sees source := by
  induction acts generalizing s with
  | nil =>
      cases hrun
      exact h
  | cons act acts ih =>
      rw [Session.run, List.foldlM_cons] at hrun
      obtain ⟨between, hact, hrest⟩ := Option.bind_eq_some_iff.mp hrun
      exact ih (h.perform hact) hrest

end Session

/-- **Tokens tile the source.** All tokens are read, and the reading ends. Each has a place of its
own in the source, one behind the other, what is outside of them are blanks, and the end of a line
is a token of its own. Whatever is done with a lexer, as long as only the token that was just taken
is given back: what it delivers once more is the token that it delivered last, and all other
deliveries are the next ones of the source, behind blanks only and behind none while these are
kept. -/
theorem tokens_tile (source : String) :
    (Lexer.ofText source).drain = some (tokenize source) ∧
      TilesSource source.toList (tokenize source) ∧
      ∀ acts s, (Session.start source).run acts = some s →
        Echoes s.log ∧ (∃ stop, Tiles source.toList 0 s.counted stop) ∧
          (s.counted.map Delivery.token).Pairwise fun t u => t.span.stop ≤ u.span.start := by
  refine ⟨drain_placed (stands_start _), tilesSource_tokensFrom _, ?_⟩
  intro acts s hrun
  have hsees := (Session.sees_start source).run hrun
  obtain ⟨stop, _, _, _, htiles⟩ := hsees.place
  exact ⟨hsees.echoes, ⟨stop, htiles⟩, htiles.ordered⟩

/-- Looking at a token and taking it while blanks are kept, then giving the blank behind it back. -/
def wavering : List LexerAct :=
  [.look, .keepBlanks true, .take, .take, .giveBack, .keepBlanks false, .take, .take]

/-- What is delivered then. -/
def wavered : List Delivery :=
  let a : Token := ⟨.name, ['a'], ⟨0, 1⟩⟩
  let blank : Token := ⟨.blanks, [' '], ⟨1, 1⟩⟩
  [⟨a, false, false⟩, ⟨a, true, true⟩, ⟨blank, true, false⟩, ⟨blank, false, true⟩,
    ⟨⟨.name, ['b'], ⟨2, 1⟩⟩, false, false⟩]

theorem tokens_tile_wavering :
    ((Session.start "a b").run wavering).map Session.log = some wavered ∧ Echoes wavered ∧
      (tokenize "a b").map (fun t => t.span) = [⟨0, 1⟩, ⟨2, 1⟩] ∧
      ∃ stop, Tiles ['a', ' ', 'b'] 0 (wavered.filter fun d => !d.again) stop := by
  have hlog : ((Session.start "a b").run wavering).map Session.log = some wavered := by
    decide +kernel
  obtain ⟨_, _, hsessions⟩ := tokens_tile "a b"
  obtain ⟨s, hrun, hs⟩ := Option.map_eq_some_iff.mp hlog
  obtain ⟨hechoes, htiles, _⟩ := hsessions wavering s hrun
  rw [Session.counted, hs] at htiles
  rw [hs] at hechoes
  exact ⟨hlog, hechoes, by decide +kernel, htiles⟩

end Chip8.Asm
