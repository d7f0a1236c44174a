import Chip8.Proofs.Asm.Spelling
import Mathlib.Data.List.Forall2

/-! # Likeness

Two source texts side by side, of which one is read like the other.

* A `Likeness` says what the two may differ in: the places of tokens, the spelling of words, the
  names that are declared, and what the code of a line ends with.
* `Like` carries a likeness over to tokens, trees, statements, tables of symbols and diagnostics.
* `Together` is about results: both are there and stand for each other, or both are refused; in
  `Likeness.Agree` they are refused with diagnostics that are alike. -/

namespace Chip8.Asm

/-- What two readings may differ in: the places, words, names and ends of lines that stand for each
other. -/
structure Likeness where
  place : Span → Span → Prop
  word : List Char → List Char → Prop
  name : Identifier → Identifier → Prop
  ending : TokenKind → TokenKind → Prop
  place_join : ∀ {a a' b b' : Span}, place a a' → place b b' → place (a.join b) (a'.join b')
  spelledAlike : ∀ {w w' : List Char}, word w w' → SpelledAlike w w'
  /-- Names are told apart in both readings or in none. -/
  name_iff : ∀ {i i' j j' : Identifier}, name i i' → name j j' → (i = j ↔ i' = j')
  ends : ∀ {k k' : TokenKind}, ending k k' → k.endsCode = true ∧ k'.endsCode = true

variable (L : Likeness)

/-! ### Tokens -/

/-- The tokens are of one kind, and their words and places stand for each other. -/
structure Token.Like (t t' : Token) : Prop where
  kind : t.kind = t'.kind
  word : L.word t.chars t'.chars
  place : L.place t.span t'.span

/-- The tokens are alike, or both end the code. -/
def Token.StopsLike (t t' : Token) : Prop :=
  t.Like L t' ∨ L.ending t.kind t'.kind ∧ L.place t.span t'.span

/-- As a name, the word stands for every word that is like it. -/
def Likeness.Knows (w : List Char) : Prop :=
  ∀ w' i i', L.word w w' → Identifier.ofChars? w = some i → Identifier.ofChars? w' = some i' →
    L.name i i'

/-- Where words are the same and names stand for themselves, every word is known. -/
theorem Likeness.knows_of_same {L : Likeness} (hword : ∀ {w w'}, L.word w w' → w = w')
    (hname : ∀ i, L.name i i) (w : List Char) : L.Knows w := by
  intro w' i i' hsame hi hi'
  obtain rfl := hword hsame
  obtain rfl := Option.some_inj.mp (hi.symm.trans hi')
  exact hname i

theorem SpelledAlike.of_eq {w w' : List Char} (h : w = w') : SpelledAlike w w' := h ▸ .refl w

theorem eq_iff_of_eq {i i' j j' : Identifier} (hi : i = i') (hj : j = j') : i = j ↔ i' = j' := by
  rw [hi, hj]

theorem endsCode_of_eq {k k' : TokenKind} (h : k = k' ∧ k'.endsCode = true) :
    k.endsCode = true ∧ k'.endsCode = true := ⟨h.1 ▸ h.2, h.2⟩

/-- All names among the tokens are known. -/
def Likeness.KnowsNames (ts : List Token) : Prop := ∀ t ∈ ts, t.kind = .name → L.Knows t.chars

variable {L}

namespace Token

variable {t t' : Token}

theorem Like.stopsLike (h : t.Like L t') : t.StopsLike L t' := Or.inl h

theorem StopsLike.place (h : t.StopsLike L t') : L.place t.span t'.span :=
  h.elim Like.place And.right

/-- A kind that ends no code is the kind of both or of none. -/
theorem StopsLike.kind_iff (h : t.StopsLike L t') {k : TokenKind} (hk : k.endsCode = false) :
    t.kind = k ↔ t'.kind = k := by
  rcases h with h | ⟨h, _⟩
  · rw [h.kind]
  · obtain ⟨hends, hends'⟩ := L.ends h
    constructor
    · rintro rfl
      rw [hk] at hends
      cases hends
    · rintro rfl
      rw [hk] at hends'
      cases hends'

/-- Tokens of a kind that ends no code are alike. -/
theorem StopsLike.like (h : t.StopsLike L t') {k : TokenKind} (hk : k.endsCode = false)
    (ht : t.kind = k) : t.Like L t' := by
  rcases h with h | ⟨h, _⟩
  · exact h
  · have hends := (L.ends h).1
    rw [ht, hk] at hends
    cases hends

theorem stopsLike_head {stop stop' : Token} (hstop : stop.StopsLike L stop') {ts ts' : List Token}
    (hts : List.Forall₂ (Token.Like L) ts ts') :
    (ts.head?.getD stop).StopsLike L (ts'.head?.getD stop') := by
  cases hts with
  | nil => exact hstop
  | cons ht _ => exact ht.stopsLike

end Token

theorem Likeness.KnowsNames.tail {t : Token} {ts : List Token} (h : L.KnowsNames (t :: ts)) :
    L.KnowsNames ts :=
  fun u hu => h u (List.mem_cons_of_mem t hu)

/-- What is left of tokens that are alike. -/
theorem forall₂_tail {α β : Type} {R : α → β → Prop} {as : List α} {bs : List β}
    (h : List.Forall₂ R as bs) : List.Forall₂ R as.tail bs.tail := by
  cases h with
  | nil => exact .nil
  | cons _ h => exact h

theorem rel_head? {α β : Type} {R : α → β → Prop} {as : List α} {bs : List β}
    (h : List.Forall₂ R as bs) : Option.Rel R as.head? bs.head? := by
  cases h with
  | nil => exact .none
  | cons h _ => exact .some h

theorem isEmpty_eq_of_forall₂ {α β : Type} {R : α → β → Prop} {as : List α} {bs : List β}
    (h : List.Forall₂ R as bs) : as.isEmpty = bs.isEmpty := by
  cases h <;> rfl

theorem rel_getLast? {α β : Type} {R : α → β → Prop} {as : List α} {bs : List β}
    (h : List.Forall₂ R as bs) : Option.Rel R as.getLast? bs.getLast? := by
  induction h with
  | nil => exact .none
  | cons h hrest ih =>
      cases hrest with
      | nil => exact .some h
      | cons _ _ =>
          rw [List.getLast?_cons_cons, List.getLast?_cons_cons]
          exact ih

/-- The parts of two pairs stand for each other. -/
structure Pairs {α α' β β' : Type} (R : α → α' → Prop) (S : β → β' → Prop) (x : α × β)
    (x' : α' × β') : Prop where
  fst : R x.1 x'.1
  snd : S x.2 x'.2

/-! ### Trees -/

variable (L)

/-- The trees have one shape, and the names and places in them stand for each other. -/
inductive Node.Like : Node → Node → Prop
  | number {v : Int64} {s s' : Span} (place : L.place s s') : Like (.number v s) (.number v s')
  | register {r : UInt8} {s s' : Span} (place : L.place s s') :
      Like (.register r s) (.register r s')
  | keyword {k : Keyword} {s s' : Span} (place : L.place s s') : Like (.keyword k s) (.keyword k s')
  | name {i i' : Identifier} {s s' : Span} (name : L.name i i') (place : L.place s s') :
      Like (.name i s) (.name i' s')
  | apply {op : Operator} {ns ns' : List Node} {s s' : Span} (operands : List.Forall₂ Like ns ns')
      (place : L.place s s') : Like (.apply op ns s) (.apply op ns' s')

variable {L}

namespace Node

variable {n n' : Node}

theorem Like.place (h : n.Like L n') : L.place n.span n'.span := by
  cases h <;> assumption

theorem Like.withSpan (h : n.Like L n') {s s' : Span} (hs : L.place s s') :
    (n.withSpan s).Like L (n'.withSpan s') := by
  cases h with
  | number => exact .number hs
  | register => exact .register hs
  | keyword => exact .keyword hs
  | name h => exact .name h hs
  | apply h => exact .apply h hs

end Node

/-! ### Statements and symbols -/

variable (L)

structure Label.Like (a a' : Label) : Prop where
  name : L.name a.name a'.name
  place : L.place a.span a'.span

inductive Body.Like : Body → Body → Prop
  | instruction {form : Form} {ns ns' : List Node} (operands : List.Forall₂ (Node.Like L) ns ns') :
      Like (.instruction form ns) (.instruction form ns')
  | constant {name name' : Label} {n n' : Node} (label : name.Like L name') (value : n.Like L n') :
      Like (.constant name n) (.constant name' n')
  | origin {n n' : Node} (target : n.Like L n') : Like (.origin n) (.origin n')
  | bytes {ns ns' : List Node} (values : List.Forall₂ (Node.Like L) ns ns') :
      Like (.bytes ns) (.bytes ns')
  | words {ns ns' : List Node} (values : List.Forall₂ (Node.Like L) ns ns') :
      Like (.words ns) (.words ns')
  | reserve {n n' : Node} (count : n.Like L n') : Like (.reserve n) (.reserve n')

/-- The symbols agree in all but name and place, which stand for each other. -/
structure Symbol.Like (s s' : Symbol) : Prop where
  name : L.name s.name s'.name
  kind : s.kind = s'.kind
  place : L.place s.span s'.span
  value : s.value = s'.value
  used : s.used = s'.used

def SymbolTable.Like (T T' : SymbolTable) : Prop :=
  List.Forall₂ (Symbol.Like L) T.symbols T'.symbols

/-- The aliases stand for the same registers, in one order. -/
def Aliases.Like (as as' : Aliases) : Prop :=
  List.Forall₂ (fun a a' => L.name a.1 a'.1 ∧ a.2 = a'.2) as as'

structure Scope.Like (scope scope' : Scope) : Prop where
  symbols : scope.symbols.Like L scope'.symbols
  aliases : scope.aliases.Like L scope'.aliases

variable {L}

theorem Scope.like_empty : Scope.empty.Like L Scope.empty := ⟨.nil, .nil⟩

/-- A search that cannot tell the lists apart finds the same in both. -/
theorem rel_find? {α β : Type} {R : α → β → Prop} {p : α → Bool} {q : β → Bool}
    (hpq : ∀ a b, R a b → p a = q b) {as : List α} {bs : List β} (h : List.Forall₂ R as bs) :
    Option.Rel R (as.find? p) (bs.find? q) := by
  induction h with
  | nil => exact .none
  | @cons a b as bs hab _ ih =>
      rw [List.find?_cons, List.find?_cons, hpq a b hab]
      cases q b with
      | true => exact .some hab
      | false => exact ih

theorem rel_or {α β : Type} {R : α → β → Prop} {a c : Option α} {b d : Option β}
    (h : Option.Rel R a b) (h' : Option.Rel R c d) : Option.Rel R (a.or c) (b.or d) := by
  cases h with
  | none => exact h'
  | some h => exact .some h

theorem map_eq_of_rel {α β γ : Type} {R : α → β → Prop} {f : α → γ} {g : β → γ}
    (hfg : ∀ a b, R a b → f a = g b) {x : Option α} {y : Option β} (h : Option.Rel R x y) :
    x.map f = y.map g := by
  cases h with
  | none => rfl
  | some h => exact congrArg some (hfg _ _ h)

theorem decide_name {i i' j j' : Identifier} (hi : L.name i i') (hj : L.name j j') :
    decide (i = j) = decide (i' = j') :=
  decide_eq_decide.mpr (L.name_iff hi hj)

theorem SymbolTable.Like.get? {T T' : SymbolTable} (h : T.Like L T') {i i' : Identifier}
    (hi : L.name i i') : Option.Rel (Symbol.Like L) (T.get? i) (T'.get? i') :=
  rel_find? (fun _ _ hs => decide_name hs.name hi) h

theorem Aliases.Like.get? {as as' : Aliases} (h : as.Like L as') {i i' : Identifier}
    (hi : L.name i i') : as.get? i = as'.get? i' := by
  refine map_eq_of_rel (fun _ _ ha => ha.2) (rel_find? (fun a a' ha => ?_) h)
  exact decide_name ha.1 hi

/-! ### Diagnostics -/

variable (L)

/-- The causes, of those that reading has, agree in all but words, names and places. -/
inductive Cause.Like : Cause → Cause → Prop
  | reservedLabel {w w' : List Char} (word : L.word w w') :
      Like (.reservedLabel w) (.reservedLabel w')
  | invalidName {w w' : List Char} (word : L.word w w') : Like (.invalidName w) (.invalidName w')
  | duplicateSymbol {i i' : Identifier} {s s' : Span} (name : L.name i i') (place : L.place s s') :
      Like (.duplicateSymbol i s) (.duplicateSymbol i' s')
  | unknownMnemonic {w w' : List Char} (word : L.word w w') :
      Like (.unknownMnemonic w) (.unknownMnemonic w')
  | noForm {w w' : List Char} (word : L.word w w') : Like (.noForm w) (.noForm w')
  | ambiguousForm {w w' : List Char} {n : Nat} (word : L.word w w') :
      Like (.ambiguousForm w n) (.ambiguousForm w' n)
  | aliasInExpression {i i' : Identifier} (name : L.name i i') :
      Like (.aliasInExpression i) (.aliasInExpression i')
  | registerInExpression : Like .registerInExpression .registerInExpression
  | badNumber {w w' : List Char} {fault : Numeral.Fault} (word : L.word w w') :
      Like (.badNumber w fault) (.badNumber w' fault)
  | unknownDirective : Like .unknownDirective .unknownDirective
  | reservedAlias {i i' : Identifier} (name : L.name i i') :
      Like (.reservedAlias i) (.reservedAlias i')
  | duplicateAlias {i i' : Identifier} (name : L.name i i') :
      Like (.duplicateAlias i) (.duplicateAlias i')
  | unexpected {expected : String} {k k' : TokenKind} (kind : k = k' ∨ L.ending k k') :
      Like (.unexpected expected k) (.unexpected expected k')

structure Diagnostic.Like (d d' : Diagnostic) : Prop where
  cause : d.cause.Like L d'.cause
  place : L.place d.span d'.span

variable {L}

theorem Diagnostic.Like.isError {d d' : Diagnostic} (h : d.Like L d') :
    d.isError = true ∧ d'.isError = true := by
  obtain ⟨cause, span⟩ := d
  obtain ⟨cause', span'⟩ := d'
  cases h.cause <;> exact ⟨rfl, rfl⟩

theorem hasErrors_of_like {ds ds' : List Diagnostic}
    (h : List.Forall₂ (Diagnostic.Like L) ds ds') : hasErrors ds = hasErrors ds' := by
  cases h with
  | nil => rfl
  | cons h _ =>
      rw [hasErrors, hasErrors, List.any_cons, List.any_cons, h.isError.1, h.isError.2,
        Bool.true_or, Bool.true_or]

theorem like_unexpected {t t' : Token} (h : t.StopsLike L t') (expected : String) :
    (Diagnostic.unexpected t expected).Like L (.unexpected t' expected) :=
  ⟨.unexpected (h.imp Token.Like.kind And.left), h.place⟩

/-! ### Results -/

/-- Both results are there and stand for each other, or both are refused, for reasons that do. -/
inductive Together {α β ε ε' : Type} (E : ε → ε' → Prop) (R : α → β → Prop) :
    Except ε α → Except ε' β → Prop
  | ok {a : α} {b : β} (h : R a b) : Together E R (.ok a) (.ok b)
  | error {e : ε} {e' : ε'} (h : E e e') : Together E R (.error e) (.error e')

namespace Together

variable {α α' β β' ε ε' : Type} {E : ε → ε' → Prop} {R : α → α' → Prop} {S : β → β' → Prop}
  {x : Except ε α} {x' : Except ε' α'}

theorem results (h : Together E R x x') :
    (∃ a a', x = .ok a ∧ x' = .ok a' ∧ R a a') ∨
      ∃ e e', x = .error e ∧ x' = .error e' ∧ E e e' := by
  cases h with
  | ok h => exact Or.inl ⟨_, _, rfl, rfl, h⟩
  | error h => exact Or.inr ⟨_, _, rfl, rfl, h⟩

theorem bind {f : α → Except ε β} {f' : α' → Except ε' β'} (h : Together E R x x')
    (hf : ∀ a a', R a a' → Together E S (f a) (f' a')) : Together E S (x >>= f) (x' >>= f') := by
  cases h with
  | ok h => exact hf _ _ h
  | error h => exact .error h

theorem map {f : α → β} {f' : α' → β'} (h : Together E R x x')
    (hf : ∀ a a', R a a' → S (f a) (f' a')) : Together E S (x.map f) (x'.map f') := by
  cases h with
  | ok h => exact .ok (hf _ _ h)
  | error h => exact .error h

end Together

variable (L)

/-- Both results of reading are there and stand for each other, or both are refused with diagnostics
that are alike. -/
abbrev Likeness.Agree {α β : Type} (R : α → β → Prop) :
    Except Diagnostic α → Except Diagnostic β → Prop :=
  Together (Diagnostic.Like L) R

/-- What was read, and the tokens behind it. -/
abbrev Likeness.Before {α α' : Type} (R : α → α' → Prop) :
    α × List Token → α' × List Token → Prop :=
  Pairs R (List.Forall₂ (Token.Like L))

/-- What was read, and the token behind it if that was met. -/
abbrev Likeness.Behind {α α' : Type} (R : α → α' → Prop) :
    α × Option Token → α' × Option Token → Prop :=
  Pairs R (Option.Rel (Token.Like L))

end Chip8.Asm
