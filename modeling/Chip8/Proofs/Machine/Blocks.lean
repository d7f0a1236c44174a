import Chip8.Proofs.Machine.Refinement

/-! # Blocks of registers

Saving the registers `V0` to `Vx` in the memory and getting them back.

* **Execution.** `executing` is what a tick does with a given word, so that what follows does not
  depend on where the word lies in the memory.
* **Saving.** `Saves m x n` says all that the machine `n` behind the saving has in other ways than
  `m`. The cells of a block are distinct, since the memory has room for all registers
  (`nodup_blockCells`).
* `saved_block_restored`: restoring is the inverse of saving. It is left with the memory and the
  index that the saving left. -/

namespace Chip8.Machine

open Instruction Word

variable {c : Config} {m n : Machine} {w : UInt16} {x : Reg}

/-! ### Execution -/

/-- What a tick does with the word `w` at the program counter. -/
def executing (m : Machine) (w : UInt16) : Outcome := m.settle (m.next.execute w m.pc)

theorem fields_of_save (hw : decode w = some (.save x)) :
    family w = 0xF ∧ (kk w).toNat = 0x55 ∧ Word.x w = x := by
  unfold decode decodeArithmetic decodeDevice at hw
  repeat' split at hw
  all_goals simp only [Option.some.injEq, save.injEq, reduceCtorEq] at hw
  rename_i hfamily _ hbyte
  exact ⟨hfamily, hbyte, hw⟩

theorem fields_of_restore (hw : decode w = some (.restore x)) :
    family w = 0xF ∧ (kk w).toNat = 0x65 ∧ Word.x w = x := by
  unfold decode decodeArithmetic decodeDevice at hw
  repeat' split at hw
  all_goals simp only [Option.some.injEq, restore.injEq, reduceCtorEq] at hw
  rename_i hfamily _ hbyte
  exact ⟨hfamily, hbyte, hw⟩

theorem execute_of_save (hw : decode w = some (.save x)) (m : Machine) (a : UInt16) :
    m.execute w a = done (m.saveBlock x) := by
  obtain ⟨hfamily, hbyte, rfl⟩ := fields_of_save hw
  unfold execute executeDevice
  rw [hfamily, hbyte]
  rfl

theorem execute_of_restore (hw : decode w = some (.restore x)) (m : Machine) (a : UInt16) :
    m.execute w a = done (m.restoreBlock x) := by
  obtain ⟨hfamily, hbyte, rfl⟩ := fields_of_restore hw
  unfold execute executeDevice
  rw [hfamily, hbyte]
  rfl

theorem executing_of_save (hc : c.check = .ok c) (h : Sound c m)
    (hw : decode w = some (.save x)) : m.executing w = m.perform (.save x) := by
  rw [executing, execute_of_save hw, ← saveBlock_next hc h]
  rfl

theorem executing_of_restore (h : Sound c m) (hw : decode w = some (.restore x)) :
    m.executing w = m.perform (.restore x) := by
  rw [executing, execute_of_restore hw, ← restoreBlock_next h]
  rfl

/-! ### Saving -/

/-- The cells of the block of the registers up to `x` at the index. -/
def blockCells (m : Machine) (x : Reg) : List Nat :=
  (List.range (x.val + 1)).map fun i => (m.index.toNat + i) % m.memory.size

/-- The machine `n` is `m` behind the saving of its registers up to `x`. -/
structure Saves (m : Machine) (x : Reg) (n : Machine) : Prop where
  /-- The program counter stands at the next word, and nothing changes but memory and index. -/
  rest : n = { m.next with memory := n.memory, index := n.index }
  size : n.memory.size = m.memory.size
  saved : ∀ r ≤ x, n.memory.byte (m.index.toNat + r.val) = m.reg r
  others : ∀ j < m.memory.size, j ∉ m.blockCells x → n.memory.byte j = m.memory.byte j
  index : n.index.toNat = (m.index.toNat + x.val + 1) % m.memory.size % 0x1000

/-- A memory with room for all registers has a cell for each of a block. -/
theorem nodup_blockCells (hroom : 0x10 ≤ m.memory.size) (x : Reg) : (m.blockCells x).Nodup := by
  refine List.pairwise_map.mpr (List.pairwise_lt_range.imp_of_mem ?_)
  intro i j _ hj hlt heq
  have hx := x.isLt
  rw [List.mem_range] at hj
  have hne : m.memory.wrap (m.index.toNat + i + (j - i)) ≠ m.memory.wrap (m.index.toNat + i) :=
    Memory.wrap_ne (by omega) (by omega)
  rw [Nat.add_assoc, Nat.add_sub_cancel' (Nat.le_of_lt hlt)] at hne
  exact hne heq.symm

/-- The bytes that are saved. -/
theorem getElem?_block (m : Machine) {r : Reg} (hr : r ≤ x) :
    (m.registers.toList.take (x.val + 1))[r.val]? = some (m.reg r) := by
  have hlt : r.val < x.val + 1 := Nat.lt_succ_of_le hr
  simp [hlt, reg]

theorem toNat_pointTo (m : Machine) (a : Nat) :
    (m.pointTo a).index.toNat = a % m.memory.size % 0x1000 := by
  rw [pointTo, Nat.toUInt16_eq, UInt16.toNat_ofNat']
  omega

theorem saves_perform (hroom : 0x10 ≤ m.memory.size) (x : Reg) :
    m.Saves x (m.perform (.save x)).1 := by
  let bytes := m.registers.toList.take (x.val + 1)
  have hlength : bytes.length = x.val + 1 := by
    have hx := x.isLt
    simp only [bytes, List.length_take, Vector.length_toList]
    omega
  have hfits : bytes.length ≤ m.memory.size := by omega
  have hmemory : (m.perform (.save x)).1.memory = m.memory.store m.index.toNat bytes :=
    (Memory.store_eq_overlay hfits).symm
  have hsize : (m.perform (.save x)).1.memory.size = m.memory.size := Memory.size_overlay
  constructor
  · rfl
  · exact hsize
  · intro r hr
    rw [hmemory]
    exact Memory.byte_store hfits (getElem?_block m hr)
  · intro j hj hother
    rw [hmemory]
    refine Memory.byte_store_of_ne (by omega) fun k hk heq => hother ?_
    have hself : m.memory.wrap j = j := Nat.mod_eq_of_lt hj
    exact List.mem_map.mpr ⟨k, List.mem_range.mpr (hlength ▸ hk), heq.trans hself⟩
  · rw [← hsize]
    exact toNat_pointTo _ _

theorem Saves.sound (hc : c.check = .ok c) (h : Sound c m) (hs : m.Saves x n) : Sound c n := by
  have hnext : Sound c m.next := h.with_pc (h.offset_lt hc m.pc 2)
  have hindex : n.index.toNat < 0x1000 := by
    rw [hs.index]
    exact Nat.mod_lt _ (by decide)
  rw [hs.rest]
  exact (hnext.with_memory hs.size).with_index hindex

/-! ### Restoring -/

/-- The index is set back to where it was, up to the size of the memory. -/
theorem toNat_index_setBack (hindex : m.index.toNat < 0x1000) (hsize : n.memory.size = m.memory.size)
    {i : UInt16} (hi : i.toNat % m.memory.size = m.index.toNat % m.memory.size) :
    (n.setIndex i).index.toNat = m.index.toNat % m.memory.size := by
  have hlow : m.index.toNat % m.memory.size < 0x1000 := Nat.lt_of_le_of_lt (Nat.mod_le _ _) hindex
  have hset : (n.setIndex i).index.toNat = i.toNat % n.memory.size % 0x1000 := n.toNat_maskIndex _
  rw [hset, hsize, hi, Nat.mod_eq_of_lt hlow]

/-- A block is restored from the cells that it was saved to, once the index is set back to them. -/
theorem Saves.restored (hc : c.check = .ok c) (h : Sound c m) (hs : m.Saves x n)
    (hv : decode w = some (.restore x)) (registers : Vector UInt8 16) (pc : UInt16) {i : UInt16}
    (hi : i.toNat % m.memory.size = m.index.toNat % m.memory.size) :
    let back := ({ n with registers := registers }.setPc pc).setIndex i
    back.executing w = done { n with
      pc := back.next.pc
      registers := Vector.ofFn fun r => if r ≤ x then m.reg r else back.reg r } := by
  intro back
  have hn := hs.sound hc h
  have hchanged : Sound c { n with registers := registers } := { hn with }
  have hback : Sound c back := (hchanged.setPc hc pc).with_index (maskIndex_lt _ _)
  have hindex : back.index.toNat = m.index.toNat % m.memory.size :=
    toNat_index_setBack h.index hs.size hi
  have hregisters : (fun r : Reg =>
        if r ≤ x then back.memory.byte (back.index.toNat + r.val) else back.reg r) =
      fun r => if r ≤ x then m.reg r else back.reg r := by
    funext r
    split
    · next hr =>
        have hcell : n.memory.wrap (back.index.toNat + r.val) =
            n.memory.wrap (m.index.toNat + r.val) := by
          rw [hindex, ← hs.size]
          exact Nat.mod_add_mod _ _ _
        exact (Memory.byte_congr hcell).trans (hs.saved r hr)
    · rfl
  have hbehind : ((back.index.toNat + x.val + 1) % n.memory.size % 0x1000).toUInt16 = n.index := by
    apply UInt16.toNat_inj.mp
    rw [hs.index, hindex, hs.size, Nat.add_assoc, Nat.mod_add_mod, ← Nat.add_assoc,
      Nat.toUInt16_eq, UInt16.toNat_ofNat']
    omega
  rw [executing_of_restore hback hv]
  refine congrArg done ?_
  show ({ back.next with
    registers := Vector.ofFn fun r : Reg =>
      if r ≤ x then back.memory.byte (back.index.toNat + r.val) else back.reg r
    index := ((back.index.toNat + x.val + 1) % n.memory.size % 0x1000).toUInt16 } : Machine) = _
  rw [hregisters, hbehind]
  rfl

/-- **Blocks of registers.** Saving the registers `V0` to `Vx` writes them to as many distinct cells
from the index on, around the end of the memory, and moves the index behind them. Nothing else
changes. If the index is then set back to where it was, or to the cell that this address stands for,
restoring gives these registers their contents again, whatever they held in between. The other
registers keep what they hold, and the memory and the index stay as the saving left them. -/
theorem saved_block_restored (hc : c.check = .ok c) (h : Reachable c m) {v : UInt16}
    (hw : decode w = some (.save x)) (hv : decode v = some (.restore x)) :
    (m.blockCells x).Nodup ∧
      (∃ saved, m.executing w = done saved ∧ m.Saves x saved ∧
        ∀ (registers : Vector UInt8 16) (pc i : UInt16),
          i = m.index ∨ i.toNat = m.index.toNat % m.memory.size →
            let back := ({ saved with registers := registers }.setPc pc).setIndex i
            back.executing v = done { saved with
              pc := back.next.pc
              registers := Vector.ofFn fun r => if r ≤ x then m.reg r else back.reg r }) ∧
      ∀ k : Machine, k.wait = .none → k.tick = k.executing k.nextWord := by
  have hsound := sound_of_reachable hc h
  have hroom := hsound.room hc
  have hsaves := saves_perform hroom x
  refine ⟨nodup_blockCells hroom x, ⟨_, executing_of_save hc hsound hw, hsaves, ?_⟩,
    fun k => tick_eq_settle⟩
  rintro registers pc i (rfl | hi)
  · exact hsaves.restored hc hsound hv registers pc rfl
  · refine hsaves.restored hc hsound hv registers pc ?_
    rw [hi, Nat.mod_mod]

/-- The smallest memory with the index at `0xFEB`, which stands for the fifth cell from the end, and
a number in the last register. -/
def atSeam : Machine :=
  (Operation.setRegister 0xF 7).apply
    ((Operation.load 5 ⟨[0xAF, 0xEB], none⟩).apply (new .glyphOne)).tick.1

/-- All registers are saved around the end of the memory, and got back from there. -/
theorem saved_block_restored_atSeam :
    Config.glyphOne.check = .ok .glyphOne ∧ Reachable .glyphOne atSeam ∧
      decode 0xFF55 = some (.save 0xF) ∧ decode 0xFF65 = some (.restore 0xF) ∧
      atSeam.blockCells 0xF = [75, 76, 77, 78, 79, 0, 1, 2, 3, 4, 5, 6, 7, 8, 9, 10] ∧
      ∃ saved, atSeam.executing 0xFF55 = done saved ∧ saved.memory.byte 10 = 7 ∧
        ∃ restored, (({ saved with registers := Vector.replicate 16 1 }.setPc 0).setIndex 75).executing
          0xFF65 = done restored ∧ restored.reg 0xF = 7 ∧ restored.index.toNat = 11 := by
  have hc : Config.glyphOne.check = .ok .glyphOne := rfl
  have hreachable : Reachable .glyphOne atSeam := .step (.step (.step .new _) .tick) _
  have hsave : decode 0xFF55 = some (.save 0xF) := by decide
  have hrestore : decode 0xFF65 = some (.restore 0xF) := by decide
  have hindex : atSeam.index = 0xFEB := by decide +kernel
  have hlast : atSeam.reg 0xF = 7 := by decide +kernel
  have hsize : atSeam.memory.size = 80 := by decide +kernel
  obtain ⟨_, ⟨saved, hsaved, hsaves, hback⟩, _⟩ :=
    saved_block_restored hc hreachable hsave hrestore
  refine ⟨hc, hreachable, hsave, hrestore, by decide +kernel, saved, hsaved, ?_, _,
    hback (Vector.replicate 16 1) 0 75 (.inr (by rw [hindex, hsize]; rfl)), ?_, ?_⟩
  · have hcell : saved.memory.wrap 10 =
        saved.memory.wrap (atSeam.index.toNat + (0xF : Reg).val) := by
      rw [Memory.wrap, Memory.wrap, hsaves.size, hsize, hindex]
      rfl
    rw [Memory.byte_congr hcell, ← hlast]
    exact hsaves.saved 0xF (Nat.le_refl _)
  · exact (Vector.getElem_ofFn _).trans ((if_pos (Fin.le_refl _)).trans hlast)
  · show saved.index.toNat = 11
    rw [hsaves.index, hsize, hindex]
    rfl

end Chip8.Machine
