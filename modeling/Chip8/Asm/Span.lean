/-! # Spans

Stretches of source text. Positions and lengths count the bytes of the UTF-8 encoding.

* `Span` is a start and a length; `Span.join` is the least span around two of them. Both numbers are
  32-bit words. Starts are not wrapped here, so they are those of texts of less than four gigabytes.
* `byteLength`, `dropBytes` and `takeBytes` measure and cut text in bytes. -/

namespace Chip8.Asm

/-- A stretch of source text. -/
structure Span where
  /-- The position of the first byte, in a text of less than four gigabytes. -/
  start : Nat
  len : Nat
deriving DecidableEq, Repr, Inhabited

namespace Span

/-- The position behind the last byte. -/
def stop (s : Span) : Nat := s.start + s.len

def isEmpty (s : Span) : Bool := s.len = 0

/-- The span from the earlier start to the later stop. Lengths are 32-bit words. -/
def join (a b : Span) : Span :=
  let start := min a.start b.start
  ⟨start, (max a.stop b.stop - start) % 0x100000000⟩

theorem join_comm (a b : Span) : a.join b = b.join a := by
  simp [join, Nat.min_comm, Nat.max_comm]

/-- In text of less than four gigabytes a joined span ends where the later of the two does. -/
theorem stop_join {a b : Span} (ha : a.stop < 0x100000000) (hb : b.stop < 0x100000000) :
    (a.join b).stop = max a.stop b.stop := by
  have h : max a.stop b.stop - min a.start b.start < 0x100000000 := by omega
  have hle : min a.start b.start ≤ max a.stop b.stop := by
    unfold stop
    omega
  rw [join, stop]
  simp only [Nat.mod_eq_of_lt h]
  omega

end Span

/-- The number of bytes of a text. -/
def byteLength : List Char → Nat
  | [] => 0
  | c :: cs => c.utf8Size + byteLength cs

/-- The text behind the first `n` bytes. -/
def dropBytes : Nat → List Char → List Char
  | 0, cs => cs
  | _ + 1, [] => []
  | n + 1, c :: cs => dropBytes (n + 1 - c.utf8Size) cs

/-- The characters that start within the first `n` bytes. -/
def takeBytes : Nat → List Char → List Char
  | 0, _ => []
  | _ + 1, [] => []
  | n + 1, c :: cs => c :: takeBytes (n + 1 - c.utf8Size) cs

@[simp] theorem byteLength_nil : byteLength [] = 0 := rfl

@[simp] theorem byteLength_cons (c : Char) (cs : List Char) :
    byteLength (c :: cs) = c.utf8Size + byteLength cs := rfl

@[simp] theorem byteLength_append (as bs : List Char) :
    byteLength (as ++ bs) = byteLength as + byteLength bs := by
  induction as with
  | nil => simp
  | cons a as ih => simp [ih, Nat.add_assoc]

theorem takeBytes_append_dropBytes (n : Nat) (cs : List Char) :
    takeBytes n cs ++ dropBytes n cs = cs := by
  induction cs generalizing n with
  | nil => cases n <;> rfl
  | cons c cs ih =>
      cases n with
      | zero => rfl
      | succ n => simp [takeBytes, dropBytes, ih]

/-- Cutting behind a whole prefix leaves what follows it. -/
theorem dropBytes_byteLength (as bs : List Char) : dropBytes (byteLength as) (as ++ bs) = bs := by
  induction as with
  | nil => cases bs <;> rfl
  | cons a as ih =>
      have hpos : 0 < a.utf8Size := Char.utf8Size_pos a
      obtain ⟨n, hn⟩ : ∃ n, byteLength (a :: as) = n + 1 :=
        ⟨byteLength (a :: as) - 1, by simp only [byteLength_cons]; omega⟩
      rw [hn, List.cons_append, dropBytes]
      have : n + 1 - a.utf8Size = byteLength as := by
        simp only [byteLength_cons] at hn
        omega
      rw [this, ih]

theorem takeBytes_byteLength (as bs : List Char) : takeBytes (byteLength as) (as ++ bs) = as := by
  induction as with
  | nil => cases bs <;> rfl
  | cons a as ih =>
      have hpos : 0 < a.utf8Size := Char.utf8Size_pos a
      obtain ⟨n, hn⟩ : ∃ n, byteLength (a :: as) = n + 1 :=
        ⟨byteLength (a :: as) - 1, by simp only [byteLength_cons]; omega⟩
      rw [hn, List.cons_append, takeBytes]
      have : n + 1 - a.utf8Size = byteLength as := by
        simp only [byteLength_cons] at hn
        omega
      rw [this, ih]

end Chip8.Asm
