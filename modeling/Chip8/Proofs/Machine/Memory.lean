import Chip8.Machine.Memory

/-! # Contents of a memory

What is in a memory behind writes and stores of bytes.

* `size_write` and `size_of_loadFrom`: no write changes the size.
* `byte_store` reads back what was stored, `byte_store_of_ne` says that no other cell has changed.
* `word_store` reads back an instruction word.
* `overlay` gives every cell its content in one step; `store_eq_overlay` says that this is the content
  behind a store. -/

namespace Chip8.Memory

variable {m : Memory} {a b i j : Nat}

/-! ### Sizes -/

theorem size_write (memory : Memory) (a : UInt16) (value : UInt8) :
    (memory.write a value).size = memory.size :=
  size_setByte _ _ _

theorem size_of_loadFrom {memory memory' : Memory} {a : UInt16} {source : ByteSource}
    (hload : memory.loadFrom a source = .ok memory') : memory'.size = memory.size := by
  unfold loadFrom at hload
  cases hdrain : source.drain with
  | error e =>
      rw [hdrain] at hload
      cases hload
  | ok bytes =>
      rw [hdrain] at hload
      change memory.load a bytes = .ok memory' at hload
      unfold load at hload
      split at hload
      · cases hload
      · obtain rfl := Except.ok.inj hload
        exact size_store _ _ _

/-! ### Contents of a memory -/

theorem wrap_ne (hi : 0 < i) (him : i < m.size) : m.wrap (a + i) ≠ m.wrap a := by
  intro h
  have hmod : (a + i - a) % m.size = 0 := Nat.sub_mod_eq_zero_of_mod_eq h
  rw [Nat.add_sub_cancel_left, Nat.mod_eq_of_lt him] at hmod
  omega

/-- A store changes no cell but those of its bytes. -/
theorem byte_store_of_ne {bs : List UInt8} (hm : 0 < m.size)
    (h : ∀ i < bs.length, m.wrap (a + i) ≠ m.wrap b) : (m.store a bs).byte b = m.byte b := by
  induction bs generalizing m a with
  | nil => rfl
  | cons v vs ih =>
      have hhead : m.wrap a ≠ m.wrap b := h 0 (Nat.succ_pos _)
      have htail : ∀ i < vs.length, (m.setByte a v).wrap (a + 1 + i) ≠ (m.setByte a v).wrap b := by
        intro i hi
        have hi' := h (i + 1) (Nat.succ_lt_succ hi)
        rw [Nat.add_comm i 1, ← Nat.add_assoc] at hi'
        simpa only [wrap, size_setByte] using hi'
      rw [store, ih (by rw [size_setByte]; exact hm) htail, byte_setByte _ _ _ _ hm]
      exact if_neg hhead

/-- A store no longer than the memory is read back byte by byte. -/
theorem byte_store {bs : List UInt8} (hfits : bs.length ≤ m.size) {v : UInt8}
    (h : bs[i]? = some v) : (m.store a bs).byte (a + i) = v := by
  induction bs generalizing m a i with
  | nil => simp at h
  | cons u us ih =>
      rw [List.length_cons] at hfits
      have hm : 0 < m.size := by omega
      cases i with
      | zero =>
          obtain rfl : u = v := by simpa using h
          rw [store, Nat.add_zero, byte_store_of_ne (by rw [size_setByte]; exact hm),
            byte_setByte _ _ _ _ hm]
          · exact if_pos rfl
          · intro i hi
            rw [Nat.add_assoc]
            exact wrap_ne (by omega) (by rw [size_setByte]; omega)
      | succ i =>
          rw [List.getElem?_cons_succ] at h
          rw [store, Nat.add_comm i 1, ← Nat.add_assoc]
          exact ih (by rw [size_setByte]; omega) h

/-- Two bytes that were stored one behind the other are read as one word. -/
theorem word_store {bs : List UInt8} (hfits : bs.length ≤ m.size) {high low : UInt8}
    (hhigh : bs[i]? = some high) (hlow : bs[i + 1]? = some low) {p : UInt16}
    (hat : p.toNat = a + i) :
    (m.store a bs).word p = high.toUInt16 * 0x100 + low.toUInt16 := by
  rw [word, hat, byte_store hfits hhigh, Nat.add_assoc, byte_store hfits hlow]

/-! ### All cells at once -/

/-- How far the cell `j` lies behind the cell of the address `a`, around the end of the memory. -/
def distance (m : Memory) (a j : Nat) : Nat := (j + (m.size - m.wrap a)) % m.size

/-- The memory with the bytes at the address `a` and behind it, and all other cells as they are. -/
def overlay (m : Memory) (a : Nat) (bs : List UInt8) : Memory :=
  ⟨Array.ofFn fun j : Fin m.size => (bs[m.distance a j]?).getD (m.byte j)⟩

theorem distance_lt (hm : 0 < m.size) : m.distance a j < m.size := Nat.mod_lt _ hm

theorem wrap_add_distance (hj : j < m.size) : m.wrap (a + m.distance a j) = j := by
  have hr : m.wrap a < m.size := Nat.mod_lt _ (by omega)
  have hsplit : m.wrap (a + m.distance a j) = (m.wrap a + m.distance a j) % m.size := by
    unfold wrap
    rw [Nat.mod_add_mod]
  rw [hsplit, distance]
  by_cases hle : m.wrap a ≤ j
  · have hd : (j + (m.size - m.wrap a)) % m.size = j - m.wrap a := by
      rw [Nat.mod_eq_sub_mod (by omega), Nat.mod_eq_of_lt (by omega)]
      omega
    rw [hd, Nat.add_sub_cancel' hle, Nat.mod_eq_of_lt hj]
  · have hd : (j + (m.size - m.wrap a)) % m.size = j + (m.size - m.wrap a) :=
      Nat.mod_eq_of_lt (by omega)
    rw [hd, Nat.mod_eq_sub_mod (by omega), Nat.mod_eq_of_lt (by omega)]
    omega

theorem byte_of_lt (hj : j < m.cells.size) : m.byte j = m.cells[j] := by
  have hwrap : m.wrap j = j := Nat.mod_eq_of_lt hj
  rw [byte, hwrap, Array.getD, dif_pos hj]
  rfl

theorem byte_congr (h : m.wrap a = m.wrap b) : m.byte a = m.byte b := by
  rw [byte, byte, h]

theorem wrap_store (bs : List UInt8) : (m.store a bs).wrap b = m.wrap b := by
  rw [wrap, size_store, wrap]

theorem ext_byte {m' : Memory} (hsize : m'.size = m.size)
    (h : ∀ j < m.size, m'.byte j = m.byte j) : m' = m := by
  cases m' with
  | mk cells' =>
      cases m with
      | mk cells =>
          congr 1
          apply Array.ext hsize
          intro j hj' hj
          have hbyte := h j hj
          rwa [byte_of_lt hj', byte_of_lt hj] at hbyte

theorem size_overlay {bs : List UInt8} : (m.overlay a bs).size = m.size := Array.size_ofFn

theorem byte_overlay {bs : List UInt8} (hj : j < m.size) :
    (m.overlay a bs).byte j = (bs[m.distance a j]?).getD (m.byte j) := by
  have hj' : j < (m.overlay a bs).size := by rw [size_overlay]; exact hj
  rw [byte_of_lt hj']
  exact Array.getElem_ofFn _

/-- Storing byte by byte is the same as giving every cell its content. -/
theorem store_eq_overlay {bs : List UInt8} (hfits : bs.length ≤ m.size) :
    m.store a bs = m.overlay a bs := by
  refine ext_byte (by rw [size_store, size_overlay]) fun j hj => ?_
  rw [size_overlay] at hj
  have hm : 0 < m.size := by omega
  have hwrap : m.wrap (a + m.distance a j) = j := wrap_add_distance hj
  have hself : m.wrap j = j := Nat.mod_eq_of_lt hj
  rw [byte_overlay hj]
  cases hget : bs[m.distance a j]? with
  | some v =>
      have hsame : (m.store a bs).byte j = (m.store a bs).byte (a + m.distance a j) :=
        byte_congr (by rw [wrap_store, wrap_store, hwrap, hself])
      rw [hsame, byte_store hfits hget]
      rfl
  | none =>
      have hlength : bs.length ≤ m.distance a j := List.getElem?_eq_none_iff.mp hget
      have hd : m.distance a j < m.size := distance_lt hm
      refine byte_store_of_ne hm fun i hi heq => ?_
      have hfar : m.wrap (a + i + (m.distance a j - i)) ≠ m.wrap (a + i) :=
        wrap_ne (by omega) (by omega)
      rw [Nat.add_assoc, Nat.add_sub_cancel' (by omega), hwrap, heq, hself] at hfar
      exact hfar rfl

end Chip8.Memory
