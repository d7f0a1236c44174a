import Chip8.Machine.Execute
import Chip8.Proofs.Machine.Memory
import Chip8.Proofs.Machine.Screen

/-! # Reachable machines

What holds of a machine whatever was done to it.

* `Operation` lists what can be done to a machine from outside, ticks included; `Reachable` machines
  are those that operations make from a new one.
* `Sound` is the invariant. There is one lemma for each way in which handlers change a state, and
  `Sound.execute` puts them together along the dispatch.
* `sound_of_reachable`: the invariant holds of every reachable machine of a configuration that passes
  its check. -/

namespace Chip8

/-! ### Operations -/

/-- Something that is done to a machine. -/
inductive Operation where
  | tick
  | pulse
  | keyPressed (code : UInt8)
  | keyReleased (code : UInt8)
  /-- Hold a key down, let go of a key, let go of all keys: the keyboard only. -/
  | holdKey (code : UInt8)
  | letGoKey (code : UInt8)
  | letGoAll
  | reset
  | setPc (a : UInt16)
  | setIndex (a : UInt16)
  | setRegister (r value : UInt8)
  | setDelay (value : UInt8)
  | write (a : UInt16) (value : UInt8)
  | load (a : UInt16) (source : ByteSource)
  | resetMemory
  | draw (x y : Nat) (sprite : List UInt8)
  | clear
  | takeFrame
deriving DecidableEq, Repr

/-- The machine behind an operation. A load that fails changes nothing. -/
def Operation.apply (m : Machine) : Operation → Machine
  | tick => m.tick.1
  | pulse => m.pulse
  | keyPressed code => m.keyPressed code
  | keyReleased code => m.keyReleased code
  | holdKey code => m.holdKey code
  | letGoKey code => m.letGoKey code
  | letGoAll => { m with keyboard := Keyboard.released }
  | reset => m.reset
  | setPc a => m.setPc a
  | setIndex a => m.setIndex a
  | setRegister r value => m.setRegister r value
  | setDelay value => m.setDelay value
  | write a value => { m with memory := m.memory.write a value }
  | load a source =>
      match m.memory.loadFrom a source with
      | .ok memory => { m with memory := memory }
      | .error _ => m
  | resetMemory => { m with memory := m.memory.reset }
  | draw x y sprite => { m with screen := (m.screen.draw x y sprite).1 }
  | clear => { m with screen := m.screen.clear }
  | takeFrame => m.takeFrame.2

theorem Operation.apply_load (m : Machine) (a : UInt16) {bs : List UInt8}
    (hfits : bs.length ≤ m.memory.size) :
    (Operation.load a ⟨bs, none⟩).apply m = { m with memory := m.memory.store a.toNat bs } := by
  have hload : m.memory.loadFrom a ⟨bs, none⟩ = .ok (m.memory.store a.toNat bs) := by
    show m.memory.load a bs = _
    rw [Memory.load, if_neg (by omega)]
  unfold Operation.apply
  dsimp only
  rw [hload]

/-- A machine that operations make from a new one. -/
inductive Reachable (c : Config) : Machine → Prop where
  | new : Reachable c (Machine.new c)
  | step {m : Machine} (h : Reachable c m) (op : Operation) : Reachable c (op.apply m)

/-! ### Invariant -/

/-- At most one event is awaited. -/
def WaitFlags.AtMostOne (w : WaitFlags) : Prop :=
  (w.delay = false ∨ w.keyPress = false) ∧ (w.delay = false ∨ w.keyRelease = false) ∧
    (w.keyPress = false ∨ w.keyRelease = false)

theorem WaitFlags.AtMostOne.remove {w v : WaitFlags} (hw : w.AtMostOne) : (w.remove v).AtMostOne := by
  have hkeep : ∀ {a b : Bool}, a = false → (a && !b) = false := by
    rintro a b rfl
    rfl
  exact ⟨hw.1.imp hkeep hkeep, hw.2.1.imp hkeep hkeep, hw.2.2.imp hkeep hkeep⟩

/-- What holds of every reachable machine of a configuration. -/
structure Sound (c : Config) (m : Machine) : Prop where
  config : m.config = c
  memory : m.memory.size = c.memorySize
  screen : m.screen.frame.shape =
    (c.screenWidth, c.screenHeight, c.screenWidth * c.screenHeight)
  pc : m.pc.toNat < c.memorySize
  index : m.index.toNat < 0x1000
  depth : m.stack.length ≤ stackDepth
  stack : ∀ a ∈ m.stack, a.toNat < c.memorySize
  wait : m.wait.AtMostOne
  beeping : m.beeping = decide (0 < m.sound.value)

/-- A memory has room for the glyphs, and sixteen bits address all of it. -/
theorem memorySize_of_check {c : Config} (hc : c.check = .ok c) :
    80 ≤ c.memorySize ∧ c.memorySize ≤ 0x10000 ∧ c.loadAddress.toNat < c.memorySize := by
  obtain ⟨_, hmax, hload, hmin, _⟩ := Config.check_eq_ok_iff.mp hc
  exact ⟨hmin, hmax, hload⟩

/-! ### Parts of a machine -/

theorem Machine.toNat_maskIndex (m : Machine) (i : Nat) :
    (m.maskIndex i).toNat = i % m.memory.size % 0x1000 := by
  rw [maskIndex, Memory.wrap, Nat.toUInt16_eq, UInt16.toNat_ofNat']
  omega

theorem Machine.maskIndex_lt (m : Machine) (i : Nat) : (m.maskIndex i).toNat < 0x1000 := by
  rw [toNat_maskIndex]
  exact Nat.mod_lt _ (by decide)

theorem toNat_glyph (value : UInt8) :
    ((value % 16).toUInt16 * glyphHeight).toNat = 5 * (value.toNat % 16) := by
  have hdigit : value.toNat % 16 < 16 := Nat.mod_lt _ (by decide)
  rw [UInt16.toNat_mul, UInt8.toNat_toUInt16, UInt8.toNat_mod]
  show value.toNat % 16 * 5 % 0x10000 = 5 * (value.toNat % 16)
  rw [Nat.mul_comm, Nat.mod_eq_of_lt (by omega)]

theorem glyph_lt (value : UInt8) : ((value % 16).toUInt16 * glyphHeight).toNat < 0x1000 := by
  have hdigit : value.toNat % 16 < 16 := Nat.mod_lt _ (by decide)
  rw [toNat_glyph]
  omega

/-- Registers and sprites are small: the coordinates of what a machine draws are sizes. -/
theorem Machine.sprite_le_sizes (m : Machine) (w : UInt16) :
    (m.reg (Word.x w)).toNat + 8 ≤ sizeLimit ∧
      (m.reg (Word.y w)).toNat + (m.sprite (Word.n w)).length ≤ sizeLimit := by
  have hx := (m.reg (Word.x w)).toNat_lt
  have hy := (m.reg (Word.y w)).toNat_lt
  have hn : Word.n w < 16 := Nat.mod_lt _ (by decide)
  rw [sprite, List.length_map, List.length_range]
  unfold sizeLimit
  omega

theorem Timer.decide_pos_pulse {t : Timer} {b : Bool} (hb : b = decide (0 < t.value)) :
    (if t.pulse.2 then false else b) = decide (0 < t.pulse.1.value) := by
  unfold Timer.pulse
  split
  · exact hb
  · rename_i hvalue
    by_cases hended : t.value - 1 = 0
    · simp [hended]
    · have hbefore : 0 < t.value := UInt8.pos_iff_ne_zero.mpr hvalue
      have hafter : 0 < t.value - 1 := UInt8.pos_iff_ne_zero.mpr hended
      simp [hb, hended, hbefore, hafter]

namespace Sound

variable {c : Config} {m : Machine}

theorem new (hc : c.check = .ok c) : Sound c (Machine.new c) where
  config := rfl
  memory := Memory.size_blank c.memorySize
  screen := Frame.shape_blank _ _
  pc := (memorySize_of_check hc).2.2
  index := Nat.succ_pos _
  depth := Nat.zero_le _
  stack := fun a ha => by cases ha
  wait := ⟨Or.inl rfl, Or.inl rfl, Or.inl rfl⟩
  beeping := rfl

/-! ### Addresses -/

/-- All registers find room in the memory. -/
theorem room (hc : c.check = .ok c) (h : Sound c m) : 0x10 ≤ m.memory.size := by
  have hmin := (memorySize_of_check hc).1
  rw [h.memory]
  omega

theorem toNat_offset (hc : c.check = .ok c) (h : Sound c m) (a : UInt16) (k : Nat) :
    (m.offset a k).toNat = (a.toNat + k) % c.memorySize := by
  obtain ⟨hmin, hmax, _⟩ := memorySize_of_check hc
  have hlt : (a.toNat + k) % c.memorySize < c.memorySize := Nat.mod_lt _ (by omega)
  rw [Machine.offset, Memory.wrap, h.memory, Nat.toUInt16_eq, UInt16.toNat_ofNat']
  exact Nat.mod_eq_of_lt (by omega)

theorem offset_lt (hc : c.check = .ok c) (h : Sound c m) (a : UInt16) (k : Nat) :
    (m.offset a k).toNat < c.memorySize := by
  obtain ⟨hmin, _, _⟩ := memorySize_of_check hc
  rw [h.toNat_offset hc]
  exact Nat.mod_lt _ (by omega)

/-! ### Changes -/

theorem with_pc (h : Sound c m) {a : UInt16} (ha : a.toNat < c.memorySize) :
    Sound c { m with pc := a } :=
  { h with pc := ha }

theorem with_index (h : Sound c m) {i : UInt16} (hi : i.toNat < 0x1000) :
    Sound c { m with index := i } :=
  { h with index := hi }

theorem with_memory (h : Sound c m) {memory : Memory} (hsize : memory.size = m.memory.size) :
    Sound c { m with memory := memory } :=
  { h with memory := hsize.trans h.memory }

theorem with_screen (h : Sound c m) {screen : Screen}
    (hshape : screen.frame.shape = (c.screenWidth, c.screenHeight, c.screenWidth * c.screenHeight)) :
    Sound c { m with screen := screen } :=
  { h with screen := hshape }

theorem setPc (hc : c.check = .ok c) (h : Sound c m) (a : UInt16) : Sound c (m.setPc a) :=
  h.with_pc (h.offset_lt hc a 0)

theorem setReg (h : Sound c m) (r : Reg) (value : UInt8) : Sound c (m.setReg r value) :=
  { h with }

theorem setFlagged (h : Sound c m) (r : Reg) (result flag : UInt8) :
    Sound c (m.setFlagged r result flag) :=
  (h.setReg r result).setReg Reg.flag flag

theorem skipIf (hc : c.check = .ok c) (h : Sound c m) (condition : Bool) :
    Sound c (m.skipIf condition) := by
  unfold Machine.skipIf
  split
  · exact h.with_pc (h.offset_lt hc _ 2)
  · exact h

theorem passBlock (h : Sound c m) (r : Reg) : Sound c (m.passBlock r) :=
  h.with_index (m.maskIndex_lt _)

/-! ### Instructions -/

theorem call (hc : c.check = .ok c) (h : Sound c m) (hroom : m.sp ≠ stackDepth) (a : UInt16) :
    Sound c ({ m with stack := m.pc :: m.stack }.setPc a) := by
  have hdepth : m.stack.length ≠ stackDepth := hroom
  have hle := h.depth
  have hlength : (m.pc :: m.stack).length ≤ stackDepth := by
    rw [List.length_cons]
    omega
  have hmem : ∀ b ∈ m.pc :: m.stack, b.toNat < c.memorySize := by
    intro b hb
    rcases List.mem_cons.mp hb with rfl | hb
    · exact h.pc
    · exact h.stack b hb
  have hpush : Sound c { m with stack := m.pc :: m.stack } :=
    { h with depth := hlength, stack := hmem }
  exact hpush.setPc hc a

theorem executeSystem (h : Sound c m) (w a : UInt16) :
    Sound c (m.executeSystem w a).1 := by
  unfold Machine.executeSystem
  split
  · exact h.with_screen (Screen.shape_clear h.screen)
  · split
    · cases hstack : m.stack with
      | nil => exact h
      | cons top rest =>
          have hmem : ∀ b ∈ top :: rest, b.toNat < c.memorySize := hstack ▸ h.stack
          have hdepth : (top :: rest).length ≤ stackDepth := hstack ▸ h.depth
          exact { h with
            pc := hmem top (List.mem_cons_self ..)
            depth := Nat.le_of_succ_le hdepth
            stack := fun b hb => hmem b (List.mem_cons_of_mem _ hb) }
    · exact h

theorem executeArithmetic (h : Sound c m) (w a : UInt16) : Sound c (m.executeArithmetic w a).1 := by
  unfold Machine.executeArithmetic
  dsimp only
  split
  · exact h.setReg _ _
  · exact h.setReg _ _
  · exact h.setReg _ _
  · exact h.setReg _ _
  · exact h.setFlagged _ _ _
  · exact h.setFlagged _ _ _
  · exact h.setFlagged _ _ _
  · exact h.setFlagged _ _ _
  · exact h.setFlagged _ _ _
  · exact h

theorem executeDraw (h : Sound c m) (w : UInt16) : Sound c (m.executeDraw w) := by
  have hshape := Screen.shape_draw m.screen (m.reg (Word.x w)).toNat (m.reg (Word.y w)).toNat
    (m.sprite (Word.n w))
  exact (h.with_screen (hshape.trans h.screen)).setReg Reg.flag _

theorem executeSkipKey (hc : c.check = .ok c) (h : Sound c m) (w a : UInt16) :
    Sound c (m.executeSkipKey w a).1 := by
  unfold Machine.executeSkipKey
  dsimp only
  split
  · exact h.skipIf hc _
  · split
    · exact h.skipIf hc _
    · exact h

theorem await (h : Sound c m) (hwait : m.wait = .none) {events : WaitFlags}
    (hevents : events.AtMostOne) : Sound c (m.await events) := by
  have hinsert : m.wait.insert events = events := by
    rw [hwait]
    rfl
  refine { h with wait := ?_ }
  show (m.wait.insert events).AtMostOne
  rw [hinsert]
  exact hevents

theorem readDelay (h : Sound c m) (hwait : m.wait = .none) {a : UInt16}
    (ha : a.toNat < c.memorySize) (r : Reg) : Sound c (m.readDelay r a) := by
  unfold Machine.readDelay
  dsimp only
  split
  · exact await ((h.setReg r _).with_pc ha) hwait ⟨Or.inr rfl, Or.inr rfl, Or.inl rfl⟩
  · exact h.setReg r _

theorem storeDecimal (h : Sound c m) (r : Reg) : Sound c (m.storeDecimal r) := by
  refine h.with_memory ?_
  rw [Memory.size_write, Memory.size_write, Memory.size_write]

theorem saveBlock (h : Sound c m) (r : Reg) : Sound c (m.saveBlock r) := by
  have hsize : ∀ (rs : List Reg) (memory : Memory),
      (rs.foldl (fun memory (i : Reg) => memory.write (m.index + i.val.toUInt16) (m.reg i))
        memory).size = memory.size := by
    intro rs
    induction rs with
    | nil => exact fun _ => rfl
    | cons i rs ih =>
        intro memory
        rw [List.foldl_cons, ih, Memory.size_write]
  exact (h.with_memory (hsize (Machine.upTo r) m.memory)).passBlock r

theorem restoreBlock (h : Sound c m) (r : Reg) : Sound c (m.restoreBlock r) := by
  have hfold : ∀ (rs : List Reg) (acc : Machine), Sound c acc →
      Sound c (rs.foldl
        (fun acc (i : Reg) => acc.setReg i (m.memory.read (m.index + i.val.toUInt16))) acc) := by
    intro rs
    induction rs with
    | nil => exact fun _ hacc => hacc
    | cons i rs ih => exact fun acc hacc => ih _ (hacc.setReg i _)
  exact (hfold (Machine.upTo r) m h).passBlock r

theorem executeDevice (h : Sound c m) (hwait : m.wait = .none) {a : UInt16}
    (ha : a.toNat < c.memorySize) (w : UInt16) : Sound c (m.executeDevice w a).1 := by
  unfold Machine.executeDevice
  dsimp only
  split
  · exact h.readDelay hwait ha _
  · have hkey : Sound c { m with keyRegister := Word.x w } := { h with }
    exact hkey.await hwait ⟨Or.inl rfl, Or.inl rfl, Or.inr rfl⟩
  · exact { h with }
  · exact { h with beeping := rfl }
  · exact h.with_index (m.maskIndex_lt _)
  · exact h.with_index (glyph_lt _)
  · exact h.storeDecimal _
  · exact h.saveBlock _
  · exact h.restoreBlock _
  · exact h

/-- **Every handler keeps the invariant.** -/
theorem execute (hc : c.check = .ok c) (h : Sound c m) (hwait : m.wait = .none) {a : UInt16}
    (ha : a.toNat < c.memorySize) (w : UInt16) : Sound c (m.execute w a).1 := by
  unfold Machine.execute
  split
  · exact h.executeSystem w a
  · exact h.setPc hc _
  · unfold Machine.executeCall
    split
    · exact h
    · rename_i hroom
      exact h.call hc hroom _
  · exact h.skipIf hc _
  · exact h.skipIf hc _
  · split
    · exact h.skipIf hc _
    · exact h
  · exact h.setReg _ _
  · exact h.setReg _ _
  · exact h.executeArithmetic w a
  · split
    · exact h.skipIf hc _
    · exact h
  · refine h.with_index ?_
    rw [Word.toNat_nnn]
    exact Nat.mod_lt _ (by decide)
  · exact h.setPc hc _
  · have hset := h.setReg (Word.x w) (Random.byte m.drawn &&& Word.kk w)
    exact { hset with }
  · exact h.executeDraw w
  · exact h.executeSkipKey hc w a
  · exact h.executeDevice hwait ha w
  · exact h

theorem tick (hc : c.check = .ok c) (h : Sound c m) : Sound c m.tick.1 := by
  unfold Machine.tick
  split
  · rename_i hempty
    have hwait : m.wait = .none := WaitFlags.isEmpty_iff.mp hempty
    have hnext : Sound c { m with pc := m.offset m.pc 2 } := h.with_pc (h.offset_lt hc m.pc 2)
    have hexecute := hnext.execute hc hwait h.pc m.nextWord
    dsimp only
    split
    · exact hexecute
    · exact hexecute.with_pc h.pc
  · exact h

/-! ### Events -/

theorem pulse (h : Sound c m) : Sound c m.pulse := by
  have hwait : m.pulse.wait.AtMostOne := by
    unfold Machine.pulse
    dsimp only
    split
    · exact h.wait.remove
    · exact h.wait
  exact { h with wait := hwait, beeping := Timer.decide_pos_pulse h.beeping }

theorem keyPressed (h : Sound c m) (code : UInt8) : Sound c (m.keyPressed code) := by
  unfold Machine.keyPressed
  split
  · rename_i hpress
    have hdelay : m.wait.delay = false := by
      rcases h.wait.1 with hdelay | hnone
      · exact hdelay
      · rw [hnone] at hpress
        cases hpress
    have hset := h.setReg m.keyRegister (Key.ofCode code).val.toUInt8
    exact { hset with wait := ⟨Or.inr rfl, Or.inl hdelay, Or.inl rfl⟩ }
  · exact h

theorem keyReleased (h : Sound c m) (code : UInt8) : Sound c (m.keyReleased code) := by
  unfold Machine.keyReleased
  split
  · exact { h with wait := ⟨h.wait.1, Or.inr rfl, Or.inr rfl⟩ }
  · exact h

theorem reset (hc : c.check = .ok c) (h : Sound c m) : Sound c m.reset where
  config := h.config
  memory := by
    show m.memory.reset.size = c.memorySize
    rw [Memory.reset, Memory.size_blank, h.memory]
  screen := Screen.shape_clear h.screen
  pc := by
    show m.config.loadAddress.toNat < c.memorySize
    rw [h.config]
    exact (memorySize_of_check hc).2.2
  index := Nat.succ_pos _
  depth := Nat.zero_le _
  stack := fun a ha => by cases ha
  wait := ⟨Or.inl rfl, Or.inl rfl, Or.inl rfl⟩
  beeping := rfl

/-- **Every operation keeps the invariant.** -/
theorem apply (hc : c.check = .ok c) (h : Sound c m) (op : Operation) : Sound c (op.apply m) := by
  cases op with
  | tick => exact h.tick hc
  | pulse => exact h.pulse
  | keyPressed code => exact h.keyPressed code
  | keyReleased code => exact h.keyReleased code
  | holdKey code => exact { h with }
  | letGoKey code => exact { h with }
  | letGoAll => exact { h with }
  | reset => exact h.reset hc
  | setPc a => exact h.setPc hc a
  | setIndex a => exact h.with_index (m.maskIndex_lt _)
  | setRegister r value => exact h.setReg _ value
  | setDelay value => exact { h with }
  | write a value => exact h.with_memory (Memory.size_write _ _ _)
  | load a source =>
      rw [Operation.apply]
      split
      · rename_i memory hload
        exact h.with_memory (Memory.size_of_loadFrom hload)
      · exact h
  | resetMemory => exact h.with_memory (Memory.size_blank _)
  | draw x y sprite => exact h.with_screen ((Screen.shape_draw m.screen x y sprite).trans h.screen)
  | clear => exact h.with_screen (Screen.shape_clear h.screen)
  | takeFrame => exact h.with_screen h.screen

end Sound

/-- **The invariant** holds of every reachable machine. -/
theorem sound_of_reachable {c : Config} (hc : c.check = .ok c) {m : Machine}
    (h : Reachable c m) : Sound c m := by
  induction h with
  | new => exact Sound.new hc
  | step _ op ih => exact ih.apply hc op

/-! ### Runs -/

/-- The machine behind a run of operations. -/
def Machine.run (m : Machine) (ops : List Operation) : Machine := ops.foldl Operation.apply m

@[simp] theorem Machine.run_nil (m : Machine) : m.run [] = m := rfl

@[simp] theorem Machine.run_cons (m : Machine) (op : Operation) (ops : List Operation) :
    m.run (op :: ops) = (op.apply m).run ops := rfl

theorem Sound.run {c : Config} {m : Machine} (hc : c.check = .ok c) (h : Sound c m)
    (ops : List Operation) : Sound c (m.run ops) := by
  induction ops generalizing m with
  | nil => exact h
  | cons op ops ih => exact ih (h.apply hc op)

end Chip8
