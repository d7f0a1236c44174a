import Chip8.Asm.Statement

/-! # Refusals

A reading function that gives no result gives a diagnostic instead.

* `FailsWith P x` says that the diagnostics which `x` fails with belong to the class `P`; it is kept
  by `bind` and `map`.
* One lemma for each reading function, from tokens up to lines (`diagnostics_parseLines`). A class
  has to have the diagnostics that these functions make themselves, and those of the forms
  (`Covers`) and of the names (`Token.NameIn`) that they ask for.
* `Refuses x` says that `x` fails with errors only: no line of a source is dropped with a warning or
  without a word (`refuses_readBody`). -/

namespace Chip8.Asm

variable {α β : Type}

theorem bind_eq_ok {ε : Type} {x : Except ε α} {f : α → Except ε β} {b : β}
    (h : (x >>= f) = .ok b) : ∃ a, x = .ok a ∧ f a = .ok b := by
  cases x with
  | error e => cases h
  | ok a => exact ⟨a, rfl, h⟩

theorem map_eq_ok {ε : Type} {x : Except ε α} {f : α → β} {b : β} (h : x.map f = .ok b) :
    ∃ a, x = .ok a ∧ f a = b := by
  cases x with
  | error e => cases h
  | ok a => exact ⟨a, rfl, Except.ok.inj h⟩

/-- Where there is no result, there is a diagnostic of a class. -/
def FailsWith (P : Diagnostic → Prop) (x : Except Diagnostic α) : Prop := ∀ d, x = .error d → P d

namespace FailsWith

variable {P : Diagnostic → Prop}

theorem ok (a : α) : FailsWith P (.ok a) := fun _ h => by cases h

theorem error {d : Diagnostic} (h : P d) : FailsWith (α := α) P (.error d) := by
  intro e he
  cases he
  exact h

theorem throw_bind {d : Diagnostic} (f : α → Except Diagnostic β) (h : P d) :
    FailsWith P (throw d >>= f) :=
  error h

theorem bind {x : Except Diagnostic α} {f : α → Except Diagnostic β} (hx : FailsWith P x)
    (hf : ∀ a, x = .ok a → FailsWith P (f a)) : FailsWith P (x >>= f) := by
  cases x with
  | error d => exact error (hx d rfl)
  | ok a => exact hf a rfl

theorem map {x : Except Diagnostic α} (f : α → β) (hx : FailsWith P x) : FailsWith P (x.map f) := by
  cases x with
  | error d => exact error (hx d rfl)
  | ok a => exact ok _

end FailsWith

/-- Where there is no result, there is an error. -/
def Refuses (x : Except Diagnostic α) : Prop := ∀ d, x = .error d → d.isError = true

namespace Refuses

theorem ok (a : α) : Refuses (.ok a) := FailsWith.ok a

theorem error {d : Diagnostic} (h : d.isError = true) : Refuses (α := α) (.error d) :=
  FailsWith.error h

end Refuses

/-! ### Classes of diagnostics -/

/-- Whether a reading function makes the cause itself. The causes that are left are those of words
that spell no name and of forms that compete, and those that are no errors. -/
def Cause.isPlain : Cause → Bool
  | invalidName _ | ambiguousForm _ _ | misaligned _ | unusedLabel _ => false
  | _ => true

/-- A class that has the diagnostics of the reading functions and of the choice of a form. -/
structure Covers (P : Diagnostic → Prop) : Prop where
  plain : ∀ d, d.cause.isPlain = true → P d
  form : ∀ mnemonic operands, FailsWith P (selectForm mnemonic operands)

/-- If the token is a name, what is wrong with its spelling belongs to a class. -/
def Token.NameIn (P : Diagnostic → Prop) (t : Token) : Prop :=
  t.kind = .name → FailsWith P (identifierOf t)

variable {P : Diagnostic → Prop} (hP : Covers P)

/-! ### Expressions -/

theorem identifierOf_eq_ok {t : Token} {i : Identifier} (h : identifierOf t = .ok i) :
    i.chars = t.chars := by
  unfold identifierOf at h
  split at h
  · rename_i hi
    cases h
    exact Identifier.chars_of_ofChars? hi
  · cases h

include hP

theorem fails_numberOf (base : Base) (t : Token) : FailsWith P (numberOf base t) := by
  unfold numberOf
  split
  · exact .ok _
  · exact .error (hP.plain _ rfl)

theorem fails_nameOf (aliases : Aliases) {t : Token} (ht : FailsWith P (identifierOf t)) :
    FailsWith P (nameOf aliases t) := by
  unfold nameOf
  split
  · rename_i d hd
    exact .error (ht d hd)
  · split
    · exact .error (hP.plain _ rfl)
    · exact .ok _

theorem fails_operandStart (aliases : Aliases) {t : Token} (ht : t.NameIn P) :
    FailsWith P (operandStart aliases t) := by
  unfold operandStart
  split
  · exact (fails_numberOf hP _ t).map _
  · rename_i hname
    exact (fails_nameOf hP aliases (ht hname)).map _
  · exact .ok _
  · exact .error (hP.plain _ rfl)
  · split
    · exact .ok _
    · exact .error (hP.plain _ rfl)
  · exact .error (hP.plain _ rfl)

theorem fails_readFrom (aliases : Aliases) (stop : Token) (frames : List Frame)
    (operand : Option Node) {ts : List Token} (hts : ∀ t ∈ ts, t.NameIn P) :
    FailsWith P (readFrom aliases stop frames operand ts) := by
  induction ts generalizing frames operand with
  | nil =>
      unfold readFrom
      split
      · exact .error (hP.plain _ rfl)
      · split
        · exact .ok _
        · exact .error (hP.plain _ rfl)
  | cons t ts ih =>
      have ih := fun frames operand =>
        ih frames operand fun u hu => hts u (List.mem_cons_of_mem t hu)
      unfold readFrom
      split
      · split
        · rename_i d hd
          exact .error (fails_operandStart hP aliases (hts t List.mem_cons_self) d hd)
        · exact ih _ _
        · exact ih _ _
      · split
        · exact ih _ _
        · exact ih _ _
        · exact .ok _
        · exact .error (hP.plain _ rfl)

theorem fails_readTree (aliases : Aliases) {p : Piece} (hp : ∀ t ∈ p.tokens, t.NameIn P) :
    FailsWith P (readTree aliases p) :=
  fails_readFrom hP aliases p.stop [] none hp

theorem fails_readValue (aliases : Aliases) {p : Piece} (hp : ∀ t ∈ p.tokens, t.NameIn P) :
    FailsWith P (readValue aliases p) := by
  unfold readValue
  split
  · exact .error (hP.plain _ rfl)
  · exact fails_readTree hP aliases hp

/-! ### Operands -/

omit hP in
theorem fails_wordOperand (aliases : Aliases) {t : Token} (ht : FailsWith P (identifierOf t)) :
    FailsWith P (wordOperand aliases t) := by
  unfold wordOperand
  split
  · exact .ok _
  · split
    · rename_i d hd
      exact .error (ht d hd)
    · split
      · exact .ok _
      · exact .ok _

theorem fails_bracketOperand (stop bracket : Token) (ts : List Token) :
    FailsWith P (bracketOperand stop bracket ts) := by
  unfold bracketOperand
  dsimp only
  split
  · split
    · exact .ok _
    · exact .error (hP.plain _ rfl)
  · exact .error (hP.plain _ rfl)

omit hP in
/-- An operand is a register, an index in brackets, a word of its own, or an expression. -/
theorem readOperand_cases (aliases : Aliases) (p : Piece) :
    readOperand aliases p = readTree aliases p ∨
      ∃ t ts, p.tokens = t :: ts ∧
        ((∃ r, t.kind = .register r ∧ readOperand aliases p = .ok (.register r t.span, ts)) ∨
          (t.kind = .bracketOpen ∧ readOperand aliases p = bracketOperand p.stop t ts) ∨
          (t.kind = .name ∧ ts = [] ∧
            readOperand aliases p = (wordOperand aliases t).map fun n => (n, []))) := by
  unfold readOperand
  cases p.tokens with
  | nil => exact Or.inl rfl
  | cons t ts =>
      cases hkind : t.kind with
      | register r => exact Or.inr ⟨t, ts, rfl, Or.inl ⟨r, hkind, by simp only [hkind]⟩⟩
      | bracketOpen => exact Or.inr ⟨t, ts, rfl, Or.inr (Or.inl ⟨hkind, by simp only [hkind]⟩)⟩
      | name =>
          cases ts with
          | nil => exact Or.inr ⟨t, [], rfl, Or.inr (Or.inr ⟨hkind, rfl, by simp only [hkind]⟩)⟩
          | cons u us => exact Or.inl (by simp only [hkind])
      | _ => exact Or.inl (by simp only [hkind])

theorem fails_readOperand (aliases : Aliases) {p : Piece} (hp : ∀ t ∈ p.tokens, t.NameIn P) :
    FailsWith P (readOperand aliases p) := by
  rcases readOperand_cases aliases p with
    h | ⟨t, ts, htokens, ⟨r, _, h⟩ | ⟨_, h⟩ | ⟨hname, _, h⟩⟩
  · rw [h]
    exact fails_readTree hP aliases hp
  · rw [h]
    exact .ok _
  · rw [h]
    exact fails_bracketOperand hP _ _ _
  · rw [h]
    exact (fails_wordOperand aliases (hp t (htokens ▸ List.mem_cons_self) hname)).map _

omit hP in
theorem mem_of_mem_pieces {stop : Token} {ts : List Token} {p : Piece} (hp : p ∈ pieces stop ts)
    {t : Token} (ht : t ∈ p.tokens) : t ∈ ts := by
  induction ts generalizing p with
  | nil =>
      rw [pieces, List.mem_singleton] at hp
      subst hp
      cases ht
  | cons u us ih =>
      rw [pieces] at hp
      split at hp
      · rcases List.mem_cons.mp hp with rfl | hp
        · cases ht
        · exact List.mem_cons_of_mem u (ih hp ht)
      · split at hp
        · rename_i q qs hq
          rw [hq] at ih
          rcases List.mem_cons.mp hp with rfl | hp
          · rcases List.mem_cons.mp ht with rfl | ht
            · exact List.mem_cons_self
            · exact List.mem_cons_of_mem u (ih List.mem_cons_self ht)
          · exact List.mem_cons_of_mem u (ih (List.mem_cons_of_mem q hp) ht)
        · cases hp

omit hP in
theorem mem_firstPiece {stop t : Token} {ts : List Token}
    (h : t ∈ (firstPiece stop ts).1.tokens) : t ∈ ts := by
  unfold firstPiece at h
  split at h
  · exact (List.takeWhile_sublist _).subset h
  · exact h

omit hP in
theorem fails_readPieces {read : Piece → Except Diagnostic (Node × List Token)} {ps : List Piece}
    (hread : ∀ p ∈ ps, FailsWith P (read p)) : FailsWith P (readPieces read ps) := by
  induction ps with
  | nil => exact .ok _
  | cons p ps ih =>
      have ih := ih fun q hq => hread q (List.mem_cons_of_mem p hq)
      unfold readPieces
      split
      · rename_i d hd
        exact .error (hread p List.mem_cons_self d hd)
      · exact .ok _
      · split
        · rename_i d hd
          exact .error (ih d hd)
        · exact .ok _

theorem fails_expect (kind : TokenKind) (expected : String) (stop : Token) (ts : List Token) :
    FailsWith P (expect kind expected stop ts) := by
  unfold expect
  dsimp only
  split
  · exact .ok _
  · exact .error (hP.plain _ rfl)

omit hP in
/-- The token that is taken is the next one, or the stop behind the last one. -/
theorem expect_eq_ok {kind : TokenKind} {expected : String} {stop t : Token} {ts rest : List Token}
    (h : expect kind expected stop ts = .ok (t, rest)) :
    t ∈ stop :: ts ∧ t.kind = kind ∧ rest = ts.tail := by
  unfold expect at h
  dsimp only at h
  split at h
  · rename_i hkind
    cases h
    refine ⟨?_, hkind, rfl⟩
    cases ts with
    | nil => exact List.mem_cons_self
    | cons u us => exact List.mem_cons_of_mem _ List.mem_cons_self
  · cases h

/-! ### Instructions and directives -/

variable (aliases : Aliases) (scope : Scope) {stop : Token} {ts : List Token}
  (hts : ∀ t ∈ ts, t.NameIn P)

include hts

theorem fails_readOperands : FailsWith P (readOperands aliases stop ts) := by
  unfold readOperands
  split
  · exact .ok _
  · refine fails_readPieces fun p hp => fails_readOperand hP aliases fun t ht => ?_
    exact hts t (mem_of_mem_pieces hp ht)

theorem fails_readInstruction (mnemonic : Token) :
    FailsWith P (readInstruction aliases stop mnemonic ts) := by
  unfold readInstruction
  split
  · refine (fails_readOperands hP aliases hts).bind fun _ _ => ?_
    exact (hP.form mnemonic _).bind fun _ _ => .ok _
  · exact .error (hP.plain _ rfl)

omit hts in
theorem fails_declare (kind : SymbolKind) (label : Label) :
    FailsWith P (scope.declare kind label) := by
  unfold Scope.declare
  split
  · exact .ok _
  · exact .error (hP.plain _ rfl)
  · exact .error (hP.plain _ rfl)

theorem fails_readConstant (hstop : stop.NameIn P) :
    FailsWith P (readConstant scope stop ts) := by
  unfold readConstant
  refine (fails_expect hP _ _ stop ts).bind fun ⟨t, us⟩ ht => ?_
  obtain ⟨hmem, hname, rfl⟩ := expect_eq_ok ht
  have hnamed : t.NameIn P := by
    rcases List.mem_cons.mp hmem with rfl | hmem
    · exact hstop
    · exact hts t hmem
  refine (hnamed hname).bind fun _ _ => ?_
  refine (fails_expect hP _ _ stop _).bind fun ⟨comma, vs⟩ hcomma => ?_
  obtain ⟨-, -, rfl⟩ := expect_eq_ok hcomma
  refine FailsWith.bind ?_ fun _ _ => (fails_declare hP scope _ _).bind fun _ _ => .ok _
  refine (fails_readTree hP _ fun u hu => hts u ?_).map _
  exact List.mem_of_mem_tail (List.mem_of_mem_tail (mem_firstPiece hu))

theorem fails_readAlias (hstop : stop.NameIn P) : FailsWith P (readAlias scope stop ts) := by
  unfold readAlias
  refine (fails_expect hP _ _ stop ts).bind fun ⟨t, us⟩ ht => ?_
  obtain ⟨hmem, hname, rfl⟩ := expect_eq_ok ht
  have hnamed : t.NameIn P := by
    rcases List.mem_cons.mp hmem with rfl | hmem
    · exact hstop
    · exact hts t hmem
  refine (hnamed hname).bind fun _ _ => ?_
  dsimp only
  split
  · exact .throw_bind _ (hP.plain _ rfl)
  · refine (fails_expect hP _ _ stop _).bind fun _ _ => ?_
    split
    · split
      · exact .throw_bind _ (hP.plain _ rfl)
      · exact .ok _
    · exact .error (hP.plain _ rfl)

theorem fails_readOnly (body : Node → Body) : FailsWith P (readOnly aliases stop body ts) := by
  refine FailsWith.bind ?_ fun _ _ => .ok _
  exact (fails_readValue hP aliases fun t ht => hts t (mem_firstPiece ht)).map _

theorem fails_readAll (body : List Node → Body) : FailsWith P (readAll aliases stop body ts) := by
  refine FailsWith.bind (fails_readPieces fun p hp => ?_) fun _ _ => .ok _
  exact fails_readValue hP aliases fun t ht => hts t (mem_of_mem_pieces hp ht)

theorem fails_readDirective (hstop : stop.NameIn P) (name : Token) :
    FailsWith P (readDirective scope stop name ts) := by
  unfold readDirective
  split
  · exact (fails_readConstant hP scope hts hstop).map _
  · exact (fails_readAlias hP scope hts hstop).map _
  · exact (fails_readOnly hP _ hts _).map _
  · exact (fails_readAll hP _ hts _).map _
  · exact (fails_readAll hP _ hts _).map _
  · exact (fails_readOnly hP _ hts _).map _
  · exact .error (hP.plain _ rfl)

/-- What a line fails with whose instruction or directive cannot be read. -/
theorem fails_readBody (hstop : stop.NameIn P) : FailsWith P (readBody scope stop ts) := by
  unfold readBody
  split
  · exact .ok _
  · rename_i t us
    have hus : ∀ u ∈ us, u.NameIn P := fun u hu => hts u (List.mem_cons_of_mem t hu)
    split
    · exact (fails_readInstruction hP _ hus _).map _
    · exact fails_readDirective hP scope hus hstop _
    · exact .ok _

omit hts in
/-- What a line reports whose label cannot be declared, whether or not it goes on without it. -/
theorem fails_declareLabel {t : Token} (ht : FailsWith P (identifierOf t)) :
    FailsWith P (declareLabel scope t) ∧ ∀ scope' reports label,
      declareLabel scope t = .ok (scope', reports, label) → ∀ d ∈ reports, P d := by
  unfold declareLabel
  split
  · exact ⟨.error (hP.plain _ rfl), fun _ _ _ h => by cases h⟩
  · constructor
    · refine ht.bind fun _ _ => ?_
      split
      · exact .ok _
      · exact .ok _
    · intro scope' reports label h
      obtain ⟨name, -, h⟩ := bind_eq_ok h
      split at h
      · cases h
        exact fun d hd => by cases hd
      · rename_i e he
        cases h
        intro d hd
        rw [List.mem_singleton] at hd
        subst hd
        exact fails_declare hP scope _ _ d he

omit hP hts

/-! ### Lines -/

theorem mem_splitLabel {ts rest : List Token} {t : Option Token} (h : splitLabel ts = (t, rest)) :
    ∀ u ∈ rest, u ∈ ts := by
  intro u hu
  unfold splitLabel at h
  split at h
  · split at h
    · cases h
      exact List.mem_cons_of_mem _ (List.mem_cons_of_mem _ hu)
    · cases h
      exact hu
  · cases h
    exact hu

theorem splitLabel_eq_some {t : Token} {ts us : List Token} (h : splitLabel ts = (some t, us)) :
    ∃ colon, ts = t :: colon :: us ∧ t.kind = .name ∧ colon.kind = .colon := by
  unfold splitLabel at h
  split at h
  · rename_i t' colon ts'
    split at h
    · rename_i hkinds
      cases h
      exact ⟨colon, rfl, hkinds⟩
    · cases h
  · cases h

/-- The names of a line belong to a class. -/
def Line.NamesIn (P : Diagnostic → Prop) (l : Line) : Prop :=
  l.stop.NameIn P ∧ ∀ t ∈ l.tokens, t.NameIn P

section Lines

variable {l : Line} (hl : l.NamesIn P)

include hP hl

theorem diagnostics_parseRest {label : Option Label} {reports : List Diagnostic}
    (hreports : ∀ d ∈ reports, P d) (hts : ∀ t ∈ ts, t ∈ l.tokens) :
    ∀ d ∈ (parseRest scope l label reports ts).diagnostics, P d := by
  have hmore : ∀ {e : Diagnostic}, P e → ∀ d ∈ reports ++ [e], P d := by
    intro e he d hd
    rcases List.mem_append.mp hd with hd | hd
    · exact hreports d hd
    · exact List.mem_singleton.mp hd ▸ he
  unfold parseRest
  split
  · rename_i e he
    exact hmore (fails_readBody hP scope (fun t ht => hl.2 t (hts t ht)) hl.1 e he)
  · exact hmore (hP.plain _ rfl)
  · exact hreports

/-- What a line is reported for. -/
theorem diagnostics_parseLine : ∀ d ∈ (parseLine scope l).diagnostics, P d := by
  unfold parseLine
  split
  · rename_i us hsplit
    exact diagnostics_parseRest hP scope hl (fun d hd => by cases hd) (mem_splitLabel hsplit)
  · rename_i t us hsplit
    obtain ⟨colon, htokens, hname, -⟩ := splitLabel_eq_some hsplit
    have ht : t ∈ l.tokens := htokens ▸ List.mem_cons_self
    obtain ⟨hfails, hreports⟩ := fails_declareLabel hP scope (hl.2 t ht hname)
    split
    · rename_i e he
      exact fun d hd => List.mem_singleton.mp hd ▸ hfails e he
    · rename_i scope' reports label hlabel
      exact diagnostics_parseRest hP scope' hl (hreports scope' reports label hlabel)
        (mem_splitLabel hsplit)

end Lines

/-- What a source is reported for. -/
theorem diagnostics_parseLines (hP : Covers P) {ls : List Line} (hls : ∀ l ∈ ls, l.NamesIn P) :
    ∀ d ∈ (parseLines scope ls).diagnostics, P d := by
  induction ls generalizing scope with
  | nil => exact fun d hd => by cases hd
  | cons l ls ih =>
      intro d hd
      rcases List.mem_append.mp hd with hd | hd
      · exact diagnostics_parseLine hP scope (hls l List.mem_cons_self) d hd
      · exact ih _ (fun l' hl' => hls l' (List.mem_cons_of_mem l hl')) d hd

/-! ### Errors -/

theorem covers_isError : Covers (·.isError = true) := by
  refine ⟨fun d hd => ?_, fun mnemonic operands => ?_⟩
  · obtain ⟨cause, span⟩ := d
    cases cause <;> first | rfl | cases hd
  · unfold selectForm
    dsimp only
    split
    · exact .ok _
    · exact .error rfl
    · exact .error rfl

theorem refuses_identifierOf (t : Token) : Refuses (identifierOf t) := by
  unfold identifierOf
  split
  · exact .ok _
  · exact .error rfl

theorem refuses_declare (kind : SymbolKind) (label : Label) :
    Refuses (scope.declare kind label) :=
  fails_declare covers_isError scope kind label

/-- A line whose instruction or directive cannot be read has an error. -/
theorem refuses_readBody (stop : Token) (ts : List Token) : Refuses (readBody scope stop ts) :=
  fails_readBody covers_isError scope (fun t _ _ => refuses_identifierOf t)
    fun _ => refuses_identifierOf stop

/-- All that a source is reported for are errors. -/
theorem isError_of_mem_parse {source : String} {d : Diagnostic}
    (hd : d ∈ (parse source).diagnostics) : d.isError = true := by
  refine diagnostics_parseLines .empty covers_isError (fun l _ => ?_) d hd
  exact ⟨fun _ => refuses_identifierOf l.stop, fun t _ _ => refuses_identifierOf t⟩

/-- A label that cannot be declared is an error. -/
theorem refuses_declareLabel (t : Token) : Refuses (declareLabel scope t) :=
  (fails_declareLabel covers_isError scope (refuses_identifierOf t)).1

end Chip8.Asm
