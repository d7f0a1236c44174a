import Chip8.Machine.Loading
import Chip8.Proofs.Machine.Memory

/-! # Loading is exact

What is in a memory behind a loading, and that nothing is where the loading fails.

* **Readers.** Reading on gives the stream of the reader, or its failure (`readOn_eq`).
* **Cells.** `Loaded m a bytes m'` says what every cell of `m'` holds if it is `m` with the bytes at
  the address `a`. A binary that is no longer than the memory never comes back to a cell that it has
  been written to (`loaded_store`).
* **Loading in place.** A loading in place does what the loading of a memory says, and leaves the
  memory alone where that fails (`run_load`, `run_loadFrom`). -/

namespace Chip8

/-! ### Readers -/

namespace Reader

/-- Reading to the end gives what is in the buffer and behind it the stream, unless that fails. -/
theorem readOn_eq (buffer : List UInt8) (r : Reader) :
    readOn buffer r = (stream r).drain.map (buffer ++ ·) := by
  induction r generalizing buffer with
  | nil => simp [readOn, stream, ByteSource.drain, Except.map]
  | cons p r ih =>
      cases p with
      | bytes bs =>
          unfold readOn stream
          split
          · simp [ByteSource.drain, Except.map]
          · rw [ih]
            cases hfailure : (stream r).failure with
            | none => simp [ByteSource.drain, hfailure, Except.map]
            | some reason => simp [ByteSource.drain, hfailure, Except.map]
      | interrupted => exact ih buffer
      | failed reason => rfl

theorem readOn_nil (r : Reader) : readOn [] r = (stream r).drain := by
  rw [readOn_eq]
  cases (stream r).drain with
  | error e => rfl
  | ok bytes => rfl

end Reader

/-! ### Cells -/

namespace Memory

variable {m : Memory} {a j : Nat} {bytes : List UInt8}

/-- The memory `m'` is `m` with the bytes at the address `a` and behind it, around the end. -/
structure Loaded (m : Memory) (a : Nat) (bytes : List UInt8) (m' : Memory) : Prop where
  size : m'.cells.size = m.cells.size
  loaded : ∀ i (hi : i < bytes.length), m'.cells[(a + i) % m.cells.size]? = some bytes[i]
  others : ∀ j, (∀ i < bytes.length, (a + i) % m.cells.size ≠ j) → m'.cells[j]? = m.cells[j]?

theorem getElem?_wrap (hm : 0 < m.size) (a : Nat) : m.cells[m.wrap a]? = some (m.byte a) := by
  have hlt : m.wrap a < m.cells.size := Nat.mod_lt _ hm
  simp [byte, hlt]

theorem getElem?_of_lt (hj : j < m.size) : m.cells[j]? = some (m.byte j) := by
  have hself : m.wrap j = j := Nat.mod_eq_of_lt hj
  rw [← getElem?_wrap (Nat.zero_lt_of_lt hj), hself]

theorem loaded_store (hfits : bytes.length ≤ m.size) (a : Nat) :
    m.Loaded a bytes (m.store a bytes) := by
  have hsize : (m.store a bytes).size = m.size := size_store m a bytes
  constructor
  · exact hsize
  · intro i hi
    have hm : 0 < (m.store a bytes).size := by omega
    have hcell : (a + i) % m.cells.size = (m.store a bytes).wrap (a + i) := (wrap_store bytes).symm
    rw [hcell, getElem?_wrap hm, byte_store hfits (List.getElem?_eq_getElem hi)]
  · intro j hother
    by_cases hj : j < m.size
    · have hself : m.wrap j = j := Nat.mod_eq_of_lt hj
      rw [getElem?_of_lt hj, getElem?_of_lt (hsize ▸ hj)]
      refine congrArg some (byte_store_of_ne (by omega) fun i hi heq => ?_)
      exact hother i hi (heq.trans hself)
    · have hnone : ∀ k : Memory, k.size = m.size → k.cells[j]? = none := by
        intro k hk
        exact Array.getElem?_eq_none (by rw [← size, hk]; omega)
      rw [hnone _ hsize, hnone _ rfl]

end Memory

/-! ### Loading in place -/

namespace Loading

variable {m : Memory} {a : UInt16}

/-- What becomes of a memory by a loading: the loaded memory takes its place, or it stays. -/
def outcome (m : Memory) : Except LoadError Memory → EStateM.Result LoadError Memory Unit
  | .ok m' => .ok () m'
  | .error e => .error e m

theorem run_store (m : Memory) (a : Nat) (bytes : List UInt8) :
    (store a bytes).run m = .ok () (m.store a bytes) := by
  induction bytes generalizing m a with
  | nil => rfl
  | cons b bs ih => exact ih (m.setByte a b) (a + 1)

theorem run_load (m : Memory) (a : UInt16) (bytes : List UInt8) :
    (load a bytes).run m = outcome m (m.load a bytes) := by
  have hget : (load a bytes).run m =
      (if m.size < bytes.length then throw (.tooLarge bytes.length m.size)
        else store a.toNat bytes : Loading Unit).run m := rfl
  rw [hget]
  unfold Memory.load
  split
  · rfl
  · exact run_store m a.toNat bytes

theorem run_loadFrom (m : Memory) (a : UInt16) (r : Reader) :
    (loadFrom a r).run m = outcome m (m.loadFrom a (Reader.stream r)) := by
  unfold loadFrom Memory.loadFrom
  rw [Reader.readOn_nil]
  cases (Reader.stream r).drain with
  | error e => rfl
  | ok bytes => exact run_load m a bytes

end Loading

/-- **Loading.** A binary that is no longer than the memory is loaded: the cells that its addresses
stand for hold its bytes, and all others what they held. A longer one is refused with its length and
the size of the memory, and no cell changes. All that a reader gives is loaded as the binary that it
gives, and no cell changes if the reader fails, whatever it has given before. This is how a memory
is loaded in place, and the loading of a memory gives the memory that is then in its place. -/
theorem loading_exact (m : Memory) (a : UInt16) :
    (∀ bytes : List UInt8, bytes.length ≤ m.size →
        ∃ m', (Loading.load a bytes).run m = .ok () m' ∧ m.Loaded a.toNat bytes m') ∧
      (∀ bytes : List UInt8, m.size < bytes.length →
        (Loading.load a bytes).run m = .error (.tooLarge bytes.length m.size) m) ∧
      (∀ r : Reader, (Reader.stream r).failure = none →
        (Loading.loadFrom a r).run m = (Loading.load a (Reader.stream r).bytes).run m) ∧
      (∀ (r : Reader) (reason : String), (Reader.stream r).failure = some reason →
        (Loading.loadFrom a r).run m = .error (.unreadable reason) m) ∧
      (∀ bytes, (Loading.load a bytes).run m = Loading.outcome m (m.load a bytes)) ∧
      ∀ r, (Loading.loadFrom a r).run m = Loading.outcome m (m.loadFrom a (Reader.stream r)) := by
  refine ⟨fun bytes hfits => ?_, fun bytes hlong => ?_, fun r hends => ?_,
    fun r reason hfails => ?_, Loading.run_load m a, Loading.run_loadFrom m a⟩
  · have hload : m.load a bytes = .ok (m.store a.toNat bytes) := if_neg (by omega)
    refine ⟨_, ?_, Memory.loaded_store hfits a.toNat⟩
    rw [Loading.run_load, hload]
    rfl
  · have hload : m.load a bytes = .error (.tooLarge bytes.length m.size) := if_pos hlong
    rw [Loading.run_load, hload]
    rfl
  · have hdrain : (Reader.stream r).drain = .ok (Reader.stream r).bytes := by
      rw [ByteSource.drain, hends]
    rw [Loading.loadFrom, Reader.readOn_nil, hdrain]
  · have hdrain : (Reader.stream r).drain = .error (.unreadable reason) := by
      rw [ByteSource.drain, hfails]
    rw [Loading.loadFrom, Reader.readOn_nil, hdrain]
    rfl

/-- A reader that gives two bytes, then one more, and then fails. -/
def breakingOff : Reader := [.bytes [1, 2], .interrupted, .bytes [3], .failed "gone"]

/-- Four bytes around the end of the smallest memory, one byte too many for it, and a reader that
fails behind three bytes. -/
theorem loading_exact_smallest :
    (∃ m', (Loading.load 78 [1, 2, 3, 4]).run (Memory.blank 80) = .ok () m' ∧
      m'.cells[1]? = some 4 ∧ m'.cells[2]? = some 0x90) ∧
      (Loading.load 78 (List.replicate 81 0)).run (Memory.blank 80) =
        .error (.tooLarge 81 80) (Memory.blank 80) ∧
      (Reader.stream breakingOff).bytes = [1, 2, 3] ∧
      (Loading.loadFrom 78 breakingOff).run (Memory.blank 80) =
        .error (.unreadable "gone") (Memory.blank 80) ∧
      (Loading.loadFrom 78 (breakingOff.take 3)).run (Memory.blank 80) =
        (Loading.load 78 [1, 2, 3]).run (Memory.blank 80) := by
  have hsize : (Memory.blank 80).cells.size = 80 := Memory.size_blank 80
  obtain ⟨hfits, hlong, hends, hfails, _, _⟩ := loading_exact (Memory.blank 80) 78
  obtain ⟨m', hload, hloaded⟩ := hfits [1, 2, 3, 4] (by rw [Memory.size_blank]; decide)
  refine ⟨⟨m', hload, ?_, ?_⟩, ?_, rfl, hfails breakingOff "gone" rfl, hends _ rfl⟩
  · have hcell := hloaded.loaded 3 (by decide)
    rwa [hsize] at hcell
  · rw [hloaded.others 2 (by rw [hsize]; decide)]
    decide +kernel
  · have hrefused := hlong (List.replicate 81 0) (by rw [Memory.size_blank]; decide)
    rwa [List.length_replicate, Memory.size_blank] at hrefused

end Chip8
