import Chip8.Proofs.Asm.Climbing
import Chip8.Proofs.Asm.Grouping
import Chip8.Proofs.Asm.Printing
import Chip8.Proofs.Asm.Standing

/-! # Operators by precedence

Operands with binary operators between them are read as the tree that the strengths of the operators
determine.

* **Syntax.** A `Chain` is what may be written: operands with binary operators between them, where an
  `Operand` is a number, a name or a chain in parentheses, behind any number of prefix operators.
  `Chain.words` are its tokens, and `Spaced` puts blanks between them.
* **Trees.** `Chain.Builds c n` says that the tree `n` groups the operands of `c` by strength
  (`Grouping.Ordered`), and that the operands are built in the same way. Prefix operators belong to
  their operand.
* **Climbing.** `climb`: operators that bind at least as tightly as `floor` are read as an ordered
  grouping. What carries it is `Growing`: the left operand read so far binds at least as tightly as
  the operator that comes next.
* `expression_grouped` puts this together, down to the text. -/

namespace Chip8.Asm

/-! ### Syntax -/

/-- A number as it is written: one token, and what it is read as. -/
structure Literal where
  base : Base
  chars : List Char
  magnitude : Nat
  token : faces chars = [(.number base, chars)]
  reads : Numeral.read base.radix 0x7FFFFFFFFFFFFFFF (chars.drop base.markLength) = .ok magnitude

mutual

/-- An operand of binary operators, and the prefix operators in front of it. -/
inductive Operand where
  | number (l : Literal)
  /-- A name that is not written like a register. -/
  | name (i : Identifier) (plain : isRegisterWord i.chars = false)
  | prefixed (op : Operator) (unary : op.arity = 1) (a : Operand)
  | paren (c : Chain)

/-- Operands with binary operators between them. -/
inductive Chain where
  | last (a : Operand)
  | link (a : Operand) (op : Operator) (binary : op.arity = 2) (rest : Chain)

end

mutual

/-- The tokens of an operand. -/
def Operand.faces : Operand → List Face
  | .number l => [(.number l.base, l.chars)]
  | .name i _ => [(.name, i.chars)]
  | .prefixed op _ a => (.operator op.spelled, op.symbol) :: a.faces
  | .paren c => (.parenOpen, ['(']) :: (c.faces ++ [(.parenClose, [')'])])

def Chain.faces : Chain → List Face
  | .last a => a.faces
  | .link a op _ rest => a.faces ++ (.operator op, op.symbol) :: rest.faces

end

mutual

/-- The names in an operand. -/
def Operand.names : Operand → List Identifier
  | .number _ => []
  | .name i _ => [i]
  | .prefixed _ _ a => a.names
  | .paren c => c.names

def Chain.names : Chain → List Identifier
  | .last a => a.names
  | .link a _ _ rest => a.names ++ rest.names

end

/-- The texts of the tokens from left to right. -/
def Chain.words (c : Chain) : List (List Char) := c.faces.map Prod.snd

/-- Operands and binary operators from left to right. -/
def Chain.inorder : Chain → List (Operand ⊕ Operator)
  | .last a => [.inl a]
  | .link a op _ rest => .inl a :: .inr op :: rest.inorder

/-- A text that consists of words with blanks between them. -/
inductive Spaced : List (List Char) → List Char → Prop
  | last (word : List Char) : Spaced [word] word
  | cons (word : List Char) {blanks : List Char} (some : blanks ≠ [])
      (blank : blanks.all isBlank = true) {words : List (List Char)} {text : List Char}
      (rest : Spaced words text) : Spaced (word :: words) (word ++ (blanks ++ text))

mutual

/-- The tree is the one of an operand, with the prefix operators applied to it alone. -/
inductive Operand.Builds : Operand → Node → Prop
  | number (l : Literal) (s : Span) : Operand.Builds (.number l) (.number (Int64.ofNat l.magnitude) s)
  | name (i : Identifier) (plain : isRegisterWord i.chars = false) (s : Span) :
      Operand.Builds (.name i plain) (.name i s)
  | prefixed {op : Operator} {unary : op.arity = 1} {a : Operand} {n : Node} (s : Span)
      (h : Operand.Builds a n) : Operand.Builds (.prefixed op unary a) (.apply op [n] s)
  | paren {c : Chain} {n : Node} (s : Span) (h : Chain.Builds c n) :
      Operand.Builds (.paren c) (n.withSpan s)

/-- The tree groups the operands and operators of a chain in their order, by strength. -/
inductive Chain.Builds : Chain → Node → Prop
  | grouped {c : Chain} {g : Grouping Operand} {n : Node} (inorder : g.inorder = c.inorder)
      (ordered : g.Ordered) (h : Grouping.Builds g n) : Chain.Builds c n

/-- The tree is the one of a grouping. -/
inductive Grouping.Builds : Grouping Operand → Node → Prop
  | operand {a : Operand} {n : Node} (h : Operand.Builds a n) : Grouping.Builds (.operand a) n
  | binary {op : Operator} {g g' : Grouping Operand} {n n' : Node} (s : Span)
      (left : Grouping.Builds g n) (right : Grouping.Builds g' n') :
      Grouping.Builds (.binary op g g') (.apply op [n, n'] s)

end

/-! ### Tokens -/

/-- A token of code that is read from its text alone. -/
def IsWord (f : Face) : Prop := faces f.2 = [f] ∧ f.1.endsCode = false

mutual

theorem Operand.isWord : ∀ (a : Operand) {f : Face}, f ∈ a.faces → IsWord f
  | .number l, f, hf => by
      rw [Operand.faces, List.mem_singleton] at hf
      rw [hf]
      exact ⟨l.token, rfl⟩
  | .name i plain, f, hf => by
      rw [Operand.faces, List.mem_singleton] at hf
      rw [hf]
      have h := faces_identifier i plain delimited_nil
      rw [List.append_nil] at h
      exact ⟨h, rfl⟩
  | .prefixed op unary a, f, hf => by
      rw [Operand.faces, List.mem_cons] at hf
      rcases hf with rfl | hf
      · cases op <;> exact ⟨rfl, rfl⟩
      · exact a.isWord hf
  | .paren c, f, hf => by
      rw [Operand.faces, List.mem_cons, List.mem_append, List.mem_singleton] at hf
      rcases hf with rfl | hf | rfl
      · exact ⟨rfl, rfl⟩
      · exact c.isWord hf
      · exact ⟨rfl, rfl⟩

theorem Chain.isWord : ∀ (c : Chain) {f : Face}, f ∈ c.faces → IsWord f
  | .last a, _, hf => a.isWord hf
  | .link a op binary rest, f, hf => by
      rw [Chain.faces, List.mem_append, List.mem_cons] at hf
      rcases hf with hf | rfl | hf
      · exact a.isWord hf
      · cases op <;> first | exact ⟨rfl, rfl⟩ | cases binary
      · exact rest.isWord hf

end

/-- A text in front of a blank keeps its tokens. -/
theorem faces_append_spaced (word : List Char) {blanks : List Char} (hsome : blanks ≠ [])
    (hblank : blanks.all isBlank = true) (text : List Char) :
    faces (word ++ (blanks ++ text)) = faces word ++ faces text := by
  have hbreaks : Breaks (blanks ++ text) := by
    cases blanks with
    | nil => exact absurd rfl hsome
    | cons c blanks =>
        rw [List.all_cons, Bool.and_eq_true] at hblank
        exact breaks_cons (breaks_of_isBlank hblank.1) _
  calc faces (word ++ (blanks ++ text))
      = faces word ++ faces (blanks ++ text) := by
        rw [faces, tokensFrom_append 0 word hbreaks, List.map_append, faces_tokensFrom,
          faces_tokensFrom]
    _ = faces word ++ faces text := by rw [faces_append_blanks hblank]

/-- The tokens of words with blanks between them. -/
theorem faces_spaced {words : List (List Char)} {text : List Char} (h : Spaced words text)
    {fs : List Face} (hwords : words = fs.map Prod.snd) (hfs : ∀ f ∈ fs, faces f.2 = [f]) :
    faces text = fs := by
  induction h generalizing fs with
  | last word =>
      obtain ⟨f, rfl, rfl⟩ := List.map_eq_singleton_iff.mp hwords.symm
      exact hfs f List.mem_cons_self
  | cons word hsome hblank _ ih =>
      obtain ⟨f, fs, rfl, rfl, hrest⟩ := List.map_eq_cons_iff.mp hwords.symm
      obtain ⟨hf, hfs⟩ := List.forall_mem_cons.mp hfs
      rw [faces_append_spaced _ hsome hblank, hf, ih hrest.symm hfs]
      rfl

/-! ### Operands -/

/-- Where an operand is due, the tokens are read as the tree and settled. -/
def OperandRead (aliases : Aliases) (ts : List Token) (n : Node) : Prop :=
  ∀ (stop : Token) (frames : List Frame) (us : List Token),
    readFrom aliases stop frames none (ts ++ us) =
      readFrom aliases stop (Frame.settle frames n).1 (some (Frame.settle frames n).2) us

/-- Where nothing waits for an operand, the tokens are read as the tree, in front of a token that does
not go on with it. -/
def ChainRead (aliases : Aliases) (ts : List Token) (n : Node) : Prop :=
  ∀ (stop : Token) (frames : List Frame) (us : List Token), Frame.Closed 1 frames →
    Reader.binding? 1 (us.head?.getD stop) = none →
      readFrom aliases stop frames none (ts ++ us) = readFrom aliases stop frames (some n) us

variable {aliases : Aliases}

theorem operandRead_number (l : Literal) {t : Token}
    (ht : t.face = (.number l.base, l.chars)) :
    OperandRead aliases [t] (.number (Int64.ofNat l.magnitude) t.span) := by
  obtain ⟨hkind, hchars⟩ := Prod.mk.inj ht
  have hstart : operandStart aliases t = .ok (.inr (.number (Int64.ofNat l.magnitude) t.span)) := by
    rw [operandStart, hkind]
    dsimp only
    rw [numberOf, hchars, l.reads]
    rfl
  exact fun stop frames us => readFrom_starts hstart stop frames us

theorem operandRead_name {i : Identifier} (hi : aliases.get? i = none) {t : Token}
    (ht : t.face = (.name, i.chars)) : OperandRead aliases [t] (.name i t.span) := by
  obtain ⟨hkind, hchars⟩ := Prod.mk.inj ht
  have hstart : operandStart aliases t = .ok (.inr (.name i t.span)) := by
    rw [operandStart, hkind]
    dsimp only
    rw [nameOf, identifierOf, hchars, Identifier.ofChars?_chars]
    dsimp only
    rw [hi]
    rfl
  exact fun stop frames us => readFrom_starts hstart stop frames us

theorem operandRead_prefixed {op : Operator} (hop : op.arity = 1) {t : Token}
    (ht : t.kind = .operator op.spelled) {ts : List Token} {n : Node}
    (h : OperandRead aliases ts n) :
    OperandRead aliases (t :: ts) (.apply op [n] (t.span.join n.span)) := by
  intro stop frames us
  have hstart : operandStart aliases t = .ok (.inl (.prefixed op t.span)) := by
    rw [operandStart, ht]
    dsimp only
    rw [Operator.asPrefix_spelled hop]
  rw [List.cons_append, readFrom_opens hstart]
  exact h stop (.prefixed op t.span :: frames) us

/-- The closing parenthesis ends what is inside, and the operand is settled. -/
theorem operandRead_paren {opening closing : Token} (hopening : opening.kind = .parenOpen)
    (hclosing : closing.kind = .parenClose) {ts : List Token} {n : Node}
    (h : ChainRead aliases ts n) :
    OperandRead aliases (opening :: (ts ++ [closing]))
      (n.withSpan (opening.span.join closing.span)) := by
  intro stop frames us
  have hstart : operandStart aliases opening = .ok (.inl (.paren opening.span)) := by
    rw [operandStart, hopening]
  have hends : Reader.binding? 1 closing = none := by
    rw [Reader.binding?, hclosing]
  calc readFrom aliases stop frames none (opening :: (ts ++ [closing]) ++ us)
      = readFrom aliases stop (.paren opening.span :: frames) none (ts ++ closing :: us) := by
        rw [List.cons_append, readFrom_opens hstart, List.append_assoc, List.singleton_append]
    _ = readFrom aliases stop (.paren opening.span :: frames) (some n) (closing :: us) :=
        h stop _ _ (Frame.closed_paren 1 opening.span frames) hends
    _ = _ := Reader.readFrom_closed hclosing

/-! ### Climbing -/

namespace Reader

variable {t : Token} {op : Operator} {floor floor' : Nat}

theorem binding?_of_le (hkind : t.kind = .operator op) (hop : op.arity = 2)
    (hle : floor ≤ op.strength) : binding? floor t = some (op, op.strength) := by
  rw [binding?, hkind]
  dsimp only
  rw [Operator.precedence_eq hop]
  simp [hle]

theorem binding?_of_lt (hkind : t.kind = .operator op) (hop : op.arity = 2)
    (hlt : op.strength < floor) : binding? floor t = none := by
  rw [binding?, hkind]
  dsimp only
  rw [Operator.precedence_eq hop]
  simp [hlt]

theorem binding?_mono (h : binding? floor t = none) (hle : floor ≤ floor') :
    binding? floor' t = none := by
  cases hbinds : binding? floor' t with
  | none => rfl
  | some binding =>
      obtain ⟨hkind, hop, hfloor⟩ := binding?_eq_some hbinds
      have hlt := lt_of_binding?_eq_none h hkind hop
      omega

end Reader

/-- A binary operator and the operand behind it, as they are read. -/
structure Link (aliases : Aliases) where
  op : Operator
  sign : Token
  operand : Operand
  tokens : List Token
  node : Node
  binary : op.arity = 2
  kind : sign.kind = .operator op
  builds : operand.Builds node
  read : OperandRead aliases tokens node

namespace Link

/-- The tokens of links from left to right. -/
def allTokens (links : List (Link aliases)) : List Token := links.flatMap fun k => k.sign :: k.tokens

def inorder (links : List (Link aliases)) : List (Operand ⊕ Operator) :=
  links.flatMap fun k => [.inr k.op, .inl k.operand]

theorem allTokens_cons (k : Link aliases) (links : List (Link aliases)) :
    allTokens (k :: links) = k.sign :: (k.tokens ++ allTokens links) := rfl

theorem inorder_cons (k : Link aliases) (links : List (Link aliases)) :
    inorder (k :: links) = .inr k.op :: .inl k.operand :: inorder links := rfl

/-- In front of a weaker operator, or of what goes on with no expression, nothing is bound. -/
theorem binding?_allTokens {links : List (Link aliases)} {floor : Nat} (hfloor : 1 ≤ floor)
    (hweaker : ∀ k ∈ links.head?, k.op.strength < floor) {stop : Token} {us : List Token}
    (hends : Reader.binding? 1 (us.head?.getD stop) = none) :
    Reader.binding? floor ((allTokens links ++ us).head?.getD stop) = none := by
  cases links with
  | nil => exact Reader.binding?_mono hends hfloor
  | cons k links => exact Reader.binding?_of_lt k.kind k.binary (hweaker k rfl)

end Link

/-- A left operand in front of `links` that operators not weaker than `floor` have made. The next
operator is not stronger than the last one in it. -/
structure Growing (floor : Nat) (links : List (Link aliases)) (g : Grouping Operand) (n : Node) :
    Prop where
  builds : g.Builds n
  ordered : g.Ordered
  tight : ∀ o ∈ g.root?, floor ≤ o.strength
  next : ∀ o ∈ g.root?, ∀ k ∈ links.head?, k.op.strength ≤ o.strength

theorem growing_operand {a : Operand} {n : Node} (h : a.Builds n) (floor : Nat)
    (links : List (Link aliases)) : Growing floor links (.operand a) n :=
  ⟨.operand h, .operand a, fun _ ho => (nomatch ho), fun _ ho => (nomatch ho)⟩

/-- From a left operand in front of `links`, reading comes to the one in front of `rest`. -/
structure Climbed (floor : Nat) (links : List (Link aliases)) (g : Grouping Operand) (n : Node)
    (rest : List (Link aliases)) (g' : Grouping Operand) (n' : Node) : Prop where
  grown : Growing floor rest g' n'
  weaker : ∀ k ∈ rest.head?, k.op.strength < floor
  shorter : rest.length ≤ links.length
  inorder : g'.inorder ++ Link.inorder rest = g.inorder ++ Link.inorder links
  reads : ∀ (stop : Token) (frames : List Frame) (us : List Token), Frame.Closed floor frames →
    Reader.binding? 1 (us.head?.getD stop) = none →
      readFrom aliases stop frames (some n) (Link.allTokens links ++ us) =
        readFrom aliases stop frames (some n') (Link.allTokens rest ++ us)

/-- An operator and its right operand, which takes all that is stronger, make a greater left
operand. -/
theorem growing_binary {floor : Nat} {k : Link aliases} {links rest : List (Link aliases)}
    {g r : Grouping Operand} {n m : Node} (h : Growing floor (k :: links) g n)
    (hfloor : floor ≤ k.op.strength)
    (hr : Climbed (k.op.strength + 1) links (.operand k.operand) k.node rest r m) :
    Growing floor rest (.binary k.op g r) (.apply k.op [n, m] (n.span.join m.span)) where
  builds := .binary _ h.builds hr.grown.builds
  ordered := .binary (fun o ho => h.next o ho k rfl) hr.grown.tight h.ordered hr.grown.ordered
  tight := by
    rintro o ⟨⟩
    exact hfloor
  next := by
    rintro o ⟨⟩ k' hk'
    exact Nat.le_of_lt_succ (hr.weaker k' hk')

/-- The tokens of an operator and its right operand are read as that. -/
theorem reads_binary {floor : Nat} {k : Link aliases} {links rest : List (Link aliases)}
    {r : Grouping Operand} {n m : Node} (hfloor : floor ≤ k.op.strength)
    (hr : Climbed (k.op.strength + 1) links (.operand k.operand) k.node rest r m)
    {stop : Token} {frames : List Frame} {us : List Token} (hframes : Frame.Closed floor frames)
    (hends : Reader.binding? 1 (us.head?.getD stop) = none) :
    readFrom aliases stop frames (some n) (Link.allTokens (k :: links) ++ us) =
      readFrom aliases stop frames (some (.apply k.op [n, m] (n.span.join m.span)))
        (Link.allTokens rest ++ us) := by
  rw [Link.allTokens_cons, List.cons_append, List.append_assoc]
  refine Reader.readFrom_right (Reader.binding?_of_le k.kind k.binary hfloor) hframes
    (Link.binding?_allTokens (Nat.le_add_left 1 _) hr.weaker hends) ?_
  intro frames' hframes'
  rw [k.read, Frame.settle_of_closed hframes']
  exact hr.reads stop frames' us hframes' hends

/-- **Operators that bind at least as tightly as `floor` are grouped by strength.** The induction is
on the number of operators: first those that the right operand takes, then those behind it. -/
theorem climb {floor : Nat} {links : List (Link aliases)} {g : Grouping Operand} {n : Node}
    (h : Growing floor links g n) : ∃ rest g' n', Climbed floor links g n rest g' n' := by
  induction hlength : links.length using Nat.strongRecOn generalizing links floor g n with
  | _ length ih =>
      cases links with
      | nil => exact ⟨[], g, n, h, by simp, Nat.le_refl _, rfl, fun _ _ _ _ _ => rfl⟩
      | cons k links =>
          by_cases hk : k.op.strength < floor
          · refine ⟨k :: links, g, n, h, ?_, Nat.le_refl _, rfl, fun _ _ _ _ _ => rfl⟩
            rintro k' ⟨⟩
            exact hk
          · rw [List.length_cons] at hlength
            have hfloor : floor ≤ k.op.strength := Nat.not_lt.mp hk
            obtain ⟨rest, r, m, hr⟩ := ih links.length (by omega)
              (growing_operand k.builds (k.op.strength + 1) links) rfl
            have hshorter := hr.shorter
            obtain ⟨rest', g', n', hg⟩ := ih rest.length (by omega)
              (growing_binary h hfloor hr) rfl
            refine ⟨rest', g', n', hg.grown, hg.weaker, ?_, ?_, ?_⟩
            · exact Nat.le_trans hg.shorter (Nat.le_trans hshorter (Nat.le_succ _))
            · rw [hg.inorder, Grouping.inorder, List.append_assoc, List.cons_append, hr.inorder,
                Grouping.inorder, Link.inorder_cons]
              rfl
            · intro stop frames us hframes hends
              rw [reads_binary hfloor hr hframes hends]
              exact hg.reads stop frames us hframes hends

/-! ### Chains -/

/-- A chain that is read as its first operand and the links behind it. -/
structure Linked (aliases : Aliases) (c : Chain) (ts : List Token) where
  first : Operand
  tokens : List Token
  node : Node
  links : List (Link aliases)
  builds : first.Builds node
  read : OperandRead aliases tokens node
  inorder : c.inorder = .inl first :: Link.inorder links
  all : ts = tokens ++ Link.allTokens links

/-- The operands of a chain are grouped by the strength of all operators between them. -/
theorem Linked.chainRead {c : Chain} {ts : List Token} (h : Linked aliases c ts) :
    ∃ n, c.Builds n ∧ ChainRead aliases ts n := by
  obtain ⟨rest, g, n, hg⟩ := climb (growing_operand h.builds 1 h.links)
  -- No operator is too weak for the whole.
  have hrest : rest = [] := by
    cases rest with
    | nil => rfl
    | cons k rest =>
        have hweak := hg.weaker k rfl
        have hpos := Operator.one_le_strength k.binary
        omega
  subst hrest
  refine ⟨n, .grouped ?_ hg.grown.ordered hg.grown.builds, ?_⟩
  · rw [h.inorder]
    simpa [Link.inorder, Grouping.inorder] using hg.inorder
  · intro stop frames us hframes hends
    rw [h.all, List.append_assoc, h.read, Frame.settle_of_closed hframes]
    exact hg.reads stop frames us hframes hends

mutual

theorem Operand.read : ∀ (a : Operand) {ts : List Token},
    (∀ i ∈ a.names, aliases.get? i = none) → ts.map Token.face = a.faces →
      ∃ n, a.Builds n ∧ OperandRead aliases ts n
  | .number l, ts, _, hts => by
      obtain ⟨t, rfl, ht⟩ := List.map_eq_singleton_iff.mp hts
      exact ⟨_, .number l t.span, operandRead_number l ht⟩
  | .name i plain, ts, hnames, hts => by
      obtain ⟨t, rfl, ht⟩ := List.map_eq_singleton_iff.mp hts
      exact ⟨_, .name i plain t.span, operandRead_name (hnames i List.mem_cons_self) ht⟩
  | .prefixed op unary a, ts, hnames, hts => by
      obtain ⟨t, us, rfl, ht, hus⟩ := List.map_eq_cons_iff.mp hts
      obtain ⟨n, hn, hread⟩ := a.read hnames hus
      exact ⟨_, .prefixed _ hn, operandRead_prefixed unary (Prod.mk.inj ht).1 hread⟩
  | .paren c, ts, hnames, hts => by
      obtain ⟨opening, us, rfl, hopening, hus⟩ := List.map_eq_cons_iff.mp hts
      obtain ⟨vs, ws, rfl, hvs, hws⟩ := List.map_eq_append_iff.mp hus
      obtain ⟨closing, rfl, hclosing⟩ := List.map_eq_singleton_iff.mp hws
      obtain ⟨linked⟩ := c.linked hnames hvs
      obtain ⟨n, hn, hread⟩ := linked.chainRead
      exact ⟨_, .paren _ hn,
        operandRead_paren (Prod.mk.inj hopening).1 (Prod.mk.inj hclosing).1 hread⟩

theorem Chain.linked : ∀ (c : Chain) {ts : List Token},
    (∀ i ∈ c.names, aliases.get? i = none) → ts.map Token.face = c.faces →
      Nonempty (Linked aliases c ts)
  | .last a, ts, hnames, hts => by
      obtain ⟨n, hn, hread⟩ := a.read hnames hts
      exact ⟨⟨a, ts, n, [], hn, hread, rfl, (List.append_nil ts).symm⟩⟩
  | .link a op binary rest, ts, hnames, hts => by
      obtain ⟨us, vs, rfl, hus, hvs⟩ := List.map_eq_append_iff.mp hts
      obtain ⟨t, ws, rfl, ht, hws⟩ := List.map_eq_cons_iff.mp hvs
      obtain ⟨n, hn, hread⟩ := a.read (fun i hi => hnames i (List.mem_append_left _ hi)) hus
      obtain ⟨h⟩ := rest.linked (fun i hi => hnames i (List.mem_append_right _ hi)) hws
      let k : Link aliases :=
        ⟨op, t, h.first, h.tokens, h.node, binary, (Prod.mk.inj ht).1, h.builds, h.read⟩
      refine ⟨⟨a, us, n, k :: h.links, hn, hread, ?_, ?_⟩⟩
      · rw [Chain.inorder, h.inorder]
        rfl
      · exact congrArg (us ++ t :: ·) h.all

end

/-! ### Texts -/

theorem Chain.faces_text {c : Chain} {text : List Char} (h : Spaced c.words text) :
    (tokensFrom 0 0 text).map Token.face = c.faces :=
  faces_spaced h rfl fun _ hf => (c.isWord hf).1

/-- The words of a chain are its tokens, and all of them are code. -/
theorem Chain.endsCode_text {c : Chain} {text : List Char} (h : Spaced c.words text) {t : Token}
    (ht : t ∈ tokensFrom 0 0 text) : t.kind.endsCode = false := by
  have hface := List.mem_map_of_mem ht (f := Token.face)
  rw [c.faces_text h] at hface
  exact (c.isWord hface).2

/-- An expression that takes all tokens of a text is read up to the end of the text. -/
theorem Reader.outcome_expression {source : String} {n : Node}
    (hcode : ∀ t ∈ tokensFrom 0 0 source.toList, t.kind.endsCode = false)
    (hreads : ∀ stop, binding? 1 stop = none →
      readExpression aliases stop (tokensFrom 0 0 source.toList) = .ok (n, [])) :
    ∃ l, (nextToken >>= expression aliases).outcome (.ofText source) = some (.ok n, l) ∧
      l.next.1.kind = .endOfFile := by
  let stop : Token := ⟨.endOfFile, [], ⟨0 + byteLength source.toList, 0⟩⟩
  let behind : Lexer := .placed source.toList stop.span.stop
  have hedge : Edge behind stop behind :=
    ⟨.inr rfl, rfl, fun _ => rfl, fun h => by cases h⟩
  have hahead : Ahead stop behind (tokensFrom 0 0 source.toList) (.ofText source) :=
    ahead_placed (stands_start source.toList) rfl hcode
  obtain ⟨t, m, hnext, -, htaken⟩ := hahead.take
  rw [outcome_next_bind hnext]
  rcases (follows_expression aliases hedge htaken).results with
    ⟨⟨k, rest⟩, k', l, hx, hm, rfl, hrest, -⟩ | ⟨d, l, hx, -⟩
  · rw [hreads stop rfl] at hx
    cases hx
    refine ⟨l, hm, ?_⟩
    cases hrest with
    | done hnext' => rw [hnext']
  · rw [hreads stop rfl] at hx
    cases hx

/-! ### Uniqueness -/

mutual

theorem Operand.like_of_builds : ∀ {a : Operand} {n n' : Node}, a.Builds n → a.Builds n' →
    n.Like Likeness.layout n'
  | _, _, _, .number l _, .number _ _ => .number trivial
  | _, _, _, .name i plain _, .name _ _ _ => .name rfl trivial
  | _, _, _, .prefixed _ h, .prefixed _ h' =>
      .apply (.cons (Operand.like_of_builds h h') .nil) trivial
  | _, _, _, .paren _ h, .paren _ h' => (Chain.like_of_builds h h').withSpan trivial

/-- The strengths of the operators determine the tree, up to places. -/
theorem Chain.like_of_builds : ∀ {c : Chain} {n n' : Node}, c.Builds n → c.Builds n' →
    n.Like Likeness.layout n'
  | _, _, _, .grouped hin hordered h, .grouped hin' hordered' h' => by
      cases Grouping.eq_of_inorder_eq hordered hordered' (hin.trans hin'.symm)
      exact Grouping.like_of_builds h h'

theorem Grouping.like_of_builds : ∀ {g : Grouping Operand} {n n' : Node}, g.Builds n →
    g.Builds n' → n.Like Likeness.layout n'
  | _, _, _, .operand h, .operand h' => Operand.like_of_builds h h'
  | _, _, _, .binary _ hl hr, .binary _ hl' hr' =>
      .apply (.cons (Grouping.like_of_builds hl hl') (.cons (Grouping.like_of_builds hr hr') .nil))
        trivial

end

/-! ### Expressions -/

/-- **Expressions are grouped by precedence.** A text of operands with binary operators between
them is read up to its end, as a tree in which every operator binds at most as tightly as the one of
its left operand and less tightly than the one of its right operand. There is only one such
grouping, and only one such tree up to places. -/
theorem expression_grouped :
    (∀ (c : Chain) (aliases : Aliases) (source : String),
      (∀ i ∈ c.names, aliases.get? i = none) → Spaced c.words source.toList →
        ∃ n, c.Builds n ∧
          (∀ stop us, Reader.binding? 1 (us.head?.getD stop) = none →
            readExpression aliases stop (tokensFrom 0 0 source.toList ++ us) = .ok (n, us)) ∧
          ∃ l, (Reader.nextToken >>= Reader.expression aliases).outcome (.ofText source) =
              some (.ok n, l) ∧ l.next.1.kind = .endOfFile) ∧
    (∀ g g' : Grouping Operand, g.Ordered → g'.Ordered → g.inorder = g'.inorder → g = g') ∧
    ∀ (c : Chain) (n n' : Node), c.Builds n → c.Builds n' → n.Like Likeness.layout n' := by
  refine ⟨fun c aliases source hnames hspaced => ?_, fun g g' => Grouping.eq_of_inorder_eq,
    fun c n n' => Chain.like_of_builds⟩
  obtain ⟨linked⟩ := c.linked hnames (c.faces_text hspaced)
  obtain ⟨n, hbuilds, hread⟩ := linked.chainRead
  have hreads : ∀ stop us, Reader.binding? 1 (us.head?.getD stop) = none →
      readExpression aliases stop (tokensFrom 0 0 source.toList ++ us) = .ok (n, us) := by
    intro stop us hends
    rw [readExpression, hread stop [] us trivial hends]
    exact Reader.readFrom_end hends
  refine ⟨n, hbuilds, hreads,
    Reader.outcome_expression (fun t ht => c.endsCode_text hspaced ht) fun stop hends => ?_⟩
  have hwhole := hreads stop [] hends
  rwa [List.append_nil] at hwhole

/-- Words with one blank between any two of them. -/
theorem spaced_intercalate {words : List (List Char)} (h : words ≠ []) :
    Spaced words ([' '].intercalate words) := by
  induction words with
  | nil => exact absurd rfl h
  | cons word words ih =>
      cases words with
      | nil =>
          rw [List.intercalate_singleton]
          exact .last word
      | cons w ws =>
          rw [List.intercalate_cons_cons, List.append_assoc]
          exact .cons word (List.cons_ne_nil ' ' []) rfl (ih (List.cons_ne_nil w ws))

/-- The chain `- 1 + 2 * ( n - 3 ) < 0x4`. -/
def mixedChain : Chain :=
  .link (.prefixed .neg rfl (.number ⟨.decimal, ['1'], 1, rfl, rfl⟩)) .add rfl
    (.link (.number ⟨.decimal, ['2'], 2, rfl, rfl⟩) .mul rfl
      (.link (.paren (.link (.name ⟨['n'], Eq.refl true⟩ rfl) .sub rfl
          (.last (.number ⟨.decimal, ['3'], 3, rfl, rfl⟩)))) .lt rfl
        (.last (.number ⟨.hexadecimal, ['0', 'x', '4'], 4, rfl, rfl⟩))))

theorem expression_grouped_mixedChain :
    ∃ n, mixedChain.Builds n ∧ n.chars = "((-1 + (2 * (n - 3))) < 4)".toList ∧
      ∃ l, (Reader.nextToken >>= Reader.expression [(⟨['x'], rfl⟩, 3)]).outcome
          (.ofText "- 1 + 2 * ( n - 3 ) < 0x4") = some (.ok n, l) ∧
        l.next.1.kind = .endOfFile := by
  have hspaced : Spaced mixedChain.words "- 1 + 2 * ( n - 3 ) < 0x4".toList :=
    spaced_intercalate (List.cons_ne_nil _ _)
  obtain ⟨n, hbuilds, hreads, hread⟩ := expression_grouped.1 mixedChain [(⟨['x'], rfl⟩, 3)]
    "- 1 + 2 * ( n - 3 ) < 0x4" (by decide) hspaced
  have hchars : ((readExpression [(⟨['x'], rfl⟩, 3)] ⟨.endOfFile, [], ⟨25, 0⟩⟩
      (tokensFrom 0 0 "- 1 + 2 * ( n - 3 ) < 0x4".toList ++ [])).toOption.map
        fun x => x.1.chars) = some "((-1 + (2 * (n - 3))) < 4)".toList := by
    decide +kernel
  rw [hreads _ _ rfl] at hchars
  exact ⟨n, hbuilds, Option.some.inj hchars, hread⟩

end Chip8.Asm
