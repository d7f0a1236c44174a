import Chip8.Proofs.Machine.Fault

/-! # The index and the memory

Whether the index stands at a cell of the memory.

* **Instructions.** All instructions that move the index reduce it to the memory or let it stand at a
  glyph, but for `LD I`, which takes its address as it is (`index_perform`).
* **Operations.** So an operation leaves the index outside of the memory only by an `LD I` of an
  address that the memory does not have, or by not moving an index that is outside already
  (`outside_apply_iff`).
* `index_of_reachable`: the index has twelve bits, and stays inside of the memory as long as no such
  `LD I` is executed. A memory of all twelve bits has every address. -/

namespace Chip8

open Instruction

/-- Whether an operation executes an `LD I` of an address that the memory does not have. -/
def Operation.PointsOutside (m : Machine) (op : Operation) : Prop :=
  op = .tick ∧ ∃ a, m.Executes (.ldIndex a) ∧ m.memory.size ≤ a.toNat

/-- A machine that is reached without pointing outside of the memory. -/
inductive Inward (c : Config) : Machine → Prop where
  | new : Inward c (Machine.new c)
  | step {m : Machine} (h : Inward c m) (op : Operation) (hop : ¬op.PointsOutside m) :
      Inward c (op.apply m)

namespace Machine

variable {c : Config} {m : Machine} {i : Instruction} {op : Operation}

/-! ### Instructions -/

theorem index_next (m : Machine) : m.next.index = m.index := rfl

theorem index_put (m : Machine) (x : Reg) (number : Nat) : (m.put x number).index = m.index := by
  unfold put
  rfl

theorem index_park (m : Machine) (x : Reg) : (m.park x).index = m.index := by
  unfold park put
  rfl

theorem index_pointTo_lt (hm : 0 < m.memory.size) (a : Nat) :
    (m.pointTo a).index.toNat < m.memory.size := by
  have hcell : a % m.memory.size < m.memory.size := Nat.mod_lt _ hm
  have hlow : a % m.memory.size % 0x1000 ≤ a % m.memory.size := Nat.mod_le _ _
  rw [pointTo, Nat.toUInt16_eq, UInt16.toNat_ofNat']
  omega

/-- Where an instruction leaves the index. -/
theorem index_perform (hc : c.check = .ok c) (h : Sound c m) (i : Instruction) :
    (m.perform i).1.index = m.index ∨ (m.perform i).1.index.toNat < c.memorySize ∨
      ∃ a, i = .ldIndex a ∧ (m.perform i).1.index = a := by
  have hmin := (memorySize_of_check hc).1
  have hpos : 0 < m.memory.size := by
    rw [h.memory]
    omega
  cases i with
  | ldIndex a => exact .inr (.inr ⟨a, rfl, rfl⟩)
  | addIndex x =>
      have hlt := index_pointTo_lt (m := m.next) hpos (m.index.toNat + m.value x)
      exact .inr (.inl (h.memory ▸ hlt))
  | ldGlyph x =>
      have hglyph : (m.perform (.ldGlyph x)).1.index.toNat = 5 * (m.value x % 16) := by
        show (5 * (m.value x % 16)).toUInt16.toNat = _
        rw [Nat.toUInt16_eq, UInt16.toNat_ofNat']
        omega
      rw [hglyph]
      omega
  | save x =>
      let saved := m.next.putIndexed (m.registers.toList.take (x.val + 1))
      have hsize : saved.memory.size = m.memory.size := Memory.size_overlay
      have hlt := index_pointTo_lt (hsize ▸ hpos) (m.index.toNat + x.val + 1)
      rw [hsize, h.memory] at hlt
      exact .inr (.inl hlt)
  | restore x =>
      have hlt := index_pointTo_lt (m := { m.next with
        registers := Vector.ofFn fun i =>
          if i ≤ x then m.memory.byte (m.index.toNat + i.val) else m.reg i }) hpos
        (m.index.toNat + x.val + 1)
      exact .inr (.inl (h.memory ▸ hlt))
  | ret =>
      obtain ⟨p, s, f, hret⟩ := exists_perform_ret m
      exact .inl (by rw [hret])
  | call t =>
      obtain ⟨p, s, f, hcall⟩ := exists_perform_call m t
      exact .inl (by rw [hcall])
  | ldFromDelay x =>
      obtain hread | hread := perform_ldFromDelay_cases m x
      · exact .inl (by rw [hread, done, index_park])
      · exact .inl (by rw [hread, done, index_put, index_next])
  | _ => exact .inl rfl

/-! ### Operations -/

/-- Where an operation leaves the index. -/
theorem index_apply (hc : c.check = .ok c) (h : Sound c m) (op : Operation) :
    (op.apply m).index = m.index ∨ (op.apply m).index.toNat < c.memorySize ∨
      ∃ a, op = .tick ∧ m.Executes (.ldIndex a) ∧ (op.apply m).index = a := by
  have hmin := (memorySize_of_check hc).1
  cases op with
  | tick =>
      show m.tick.1.index = _ ∨ m.tick.1.index.toNat < _ ∨ ∃ a, _ ∧ _ ∧ m.tick.1.index = a
      obtain ⟨_, htick⟩ | ⟨_, _, htick⟩ | ⟨i, hi, htick⟩ := tick_cases hc h
      · exact .inl (by rw [htick])
      · exact .inl (by rw [htick])
      · rw [htick]
        obtain hsame | hlt | ⟨a, rfl, ha⟩ := index_perform hc h i
        · exact .inl hsame
        · exact .inr (.inl hlt)
        · exact .inr (.inr ⟨a, rfl, hi, ha⟩)
  | keyPressed code =>
      show (m.keyPressed code).index = _ ∨ _
      unfold keyPressed
      split
      · exact .inl rfl
      · exact .inl rfl
  | keyReleased code =>
      show (m.keyReleased code).index = _ ∨ _
      unfold keyReleased
      split
      · exact .inl rfl
      · exact .inl rfl
  | reset =>
      refine .inr (.inl ?_)
      show 0 < c.memorySize
      omega
  | setIndex a =>
      refine .inr (.inl ?_)
      have hcell : a.toNat % c.memorySize < c.memorySize := Nat.mod_lt _ (by omega)
      show (m.maskIndex a.toNat).toNat < c.memorySize
      rw [toNat_maskIndex, h.memory]
      omega
  | load a source =>
      rw [Operation.apply]
      split
      · exact .inl rfl
      · exact .inl rfl
  | resetMemory =>
      refine .inl ?_
      unfold Operation.apply
      rfl
  | _ => exact .inl rfl

/-- **Leaving the memory.** An operation leaves the index outside only by an `LD I` of an address
outside, or by not moving it. -/
theorem outside_apply_iff (hc : c.check = .ok c) (h : Sound c m) (op : Operation) :
    c.memorySize ≤ (op.apply m).index.toNat ↔
      op.PointsOutside m ∨ (op.apply m).index = m.index ∧ c.memorySize ≤ m.index.toNat := by
  constructor
  · intro houtside
    obtain hsame | hlt | ⟨a, rfl, hi, ha⟩ := index_apply hc h op
    · exact .inr ⟨hsame, hsame ▸ houtside⟩
    · omega
    · refine .inl ⟨rfl, a, hi, ?_⟩
      rw [h.memory, ← ha]
      exact houtside
  · rintro (⟨rfl, a, hi, ha⟩ | ⟨hsame, houtside⟩)
    -- `LD I` stores its address whole, so the index is that address.
    · have htick : m.tick = done { m.next with index := a } := tick_of_executes hc h hi
      show c.memorySize ≤ m.tick.1.index.toNat
      rw [htick, ← h.memory]
      exact ha
    · rw [hsame]
      exact houtside

theorem index_lt_of_inward (hc : c.check = .ok c) (h : Inward c m) :
    Sound c m ∧ m.index.toNat < c.memorySize := by
  induction h with
  | new =>
      have hmin := (memorySize_of_check hc).1
      refine ⟨Sound.new hc, ?_⟩
      show 0 < c.memorySize
      omega
  | @step m _ op hop ih =>
      obtain ⟨hsound, hinside⟩ := ih
      refine ⟨hsound.apply hc op, Nat.lt_of_not_le fun houtside => ?_⟩
      obtain hpoints | ⟨_, hbefore⟩ := (outside_apply_iff hc hsound op).mp houtside
      · exact hop hpoints
      · omega

/-- **The index** has twelve bits. It stands at a cell of the memory unless an `LD I` of an address
that the memory does not have was executed, and such an `LD I` is the only operation that takes it
out of the memory. -/
theorem index_of_reachable (hc : c.check = .ok c) (h : Reachable c m) :
    m.index.toNat < 0x1000 ∧
      (Inward c m → m.index.toNat < c.memorySize) ∧
      ∀ op : Operation, c.memorySize ≤ (op.apply m).index.toNat ↔
        op.PointsOutside m ∨ (op.apply m).index = m.index ∧ c.memorySize ≤ m.index.toNat := by
  have hsound := sound_of_reachable hc h
  exact ⟨hsound.index, fun hinward => (index_lt_of_inward hc hinward).2, outside_apply_iff hc hsound⟩

/-- The smallest memory, with a program that lets the index stand at `0xFFF` and then moves it on by
the contents of `V0`. -/
def pointing : Machine :=
  (Operation.load 5 ⟨[0xAF, 0xFF, 0xF0, 0x1E], none⟩).apply (new .glyphOne)

theorem reachable_pointing : Reachable .glyphOne pointing :=
  .step .new (.load 5 ⟨[0xAF, 0xFF, 0xF0, 0x1E], none⟩)

/-- The `LD I` takes the index out of the memory, the move takes it back. -/
theorem index_of_reachable_pointing :
    Config.glyphOne.check = .ok .glyphOne ∧ Reachable .glyphOne pointing ∧
      Inward .glyphOne pointing ∧ pointing.index.toNat < Config.glyphOne.memorySize ∧
      Operation.tick.PointsOutside pointing ∧
      Config.glyphOne.memorySize ≤ (Operation.tick.apply pointing).index.toNat ∧
      Reachable .glyphOne (Operation.tick.apply pointing) ∧
      (Operation.tick.apply (Operation.tick.apply pointing)).index.toNat <
        Config.glyphOne.memorySize := by
  have hc : Config.glyphOne.check = .ok .glyphOne := rfl
  have hinward : Inward .glyphOne pointing :=
    .step .new (.load 5 ⟨[0xAF, 0xFF, 0xF0, 0x1E], none⟩) fun hpoints => by cases hpoints.1
  have hnext : Reachable .glyphOne (Operation.tick.apply pointing) := reachable_pointing.step .tick
  obtain ⟨_, hinside, hleaves⟩ := index_of_reachable hc reachable_pointing
  obtain ⟨_, _, hmoves⟩ := index_of_reachable hc hnext
  have hpoints : Operation.tick.PointsOutside pointing :=
    ⟨rfl, 0xFFF, ⟨by decide +kernel, by decide +kernel⟩, by decide +kernel⟩
  have hadds : decode ((Operation.tick.apply pointing).wordAt
      (Operation.tick.apply pointing).pc.toNat) = some (.addIndex Reg.first) := by decide +kernel
  have hmoved : (Operation.tick.apply (Operation.tick.apply pointing)).index ≠
      (Operation.tick.apply pointing).index := by decide +kernel
  refine ⟨hc, reachable_pointing, hinward, hinside hinward, hpoints,
    (hleaves .tick).mpr (.inl hpoints), hnext, Nat.lt_of_not_le fun houtside => ?_⟩
  obtain ⟨_, a, hi, _⟩ | ⟨hsame, _⟩ := (hmoves .tick).mp houtside
  · rw [hi.word] at hadds
    cases hadds
  · exact hmoved hsame

/-- A tick takes the index out of the memory. -/
theorem index_outside :
    Config.glyphOne.check = .ok .glyphOne ∧ Reachable .glyphOne pointing.tick.1 ∧
      ¬ pointing.tick.1.index.toNat < Config.glyphOne.memorySize :=
  ⟨rfl, reachable_pointing.step .tick, by decide +kernel⟩

end Machine

end Chip8
