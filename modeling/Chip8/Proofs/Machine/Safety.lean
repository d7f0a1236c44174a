import Chip8.Proofs.Machine.Checked
import Chip8.Proofs.Machine.Refinement

/-! # No machine traps

The machine once more over its checked parts (`Checked`): registers are indexed by the bits of the
instruction word, handlers are taken out of a table with sixteen entries, return addresses lie in
sixteen slots, and every sum of an address is checked. A step that goes wrong gives `none`.

* `InBounds` is the part of the invariant that the checks rely on. For every handler `f` the
  theorem `f_eq` says that its checked form does not trap on such a machine and computes `f`.
* `InBounds.execute_eq` and `InBounds.tick_eq` put them together along the dispatch.
* `safe_of_reachable`: the invariant holds of every reachable machine, and no operation traps on
  it. -/

namespace Chip8

open Checked Word

namespace Machine

/-! ### Checked handlers -/

def reg? (m : Machine) (r : Nat) : Option UInt8 := m.registers[r]?

def setReg? (m : Machine) (r : Nat) (value : UInt8) : Option Machine :=
  if h : r < 16 then some { m with registers := m.registers.set r value h } else none

def setFlagged? (m : Machine) (r : Nat) (result flag : UInt8) : Option Machine := do
  (← m.setReg? r result).setReg? 0xF flag

def offset? (m : Machine) (a : UInt16) (amount : Nat) : Option UInt16 := do
  let cell ← m.memory.cell? (← within sizeLimit (a.toNat + amount))
  some (← within wordLimit cell).toUInt16

def setPc? (m : Machine) (a : UInt16) : Option Machine := do
  some { m with pc := ← m.offset? a 0 }

def maskIndex? (m : Machine) (i : Nat) : Option UInt16 := do
  let cell ← m.memory.cell? (← within sizeLimit i)
  some (← within wordLimit (cell % 0x1000)).toUInt16

def skipIf? (m : Machine) (condition : Bool) : Option Machine :=
  if condition then do some { m with pc := ← m.offset? m.pc 2 } else some m

/-- A slot of the call stack. The outermost return address is in slot 0. -/
def slot? (m : Machine) (i : Nat) : Option UInt16 := do
  m.stack.reverse[← within stackDepth i]?

def executeSystem? (m : Machine) (w a : UInt16) : Option Outcome :=
  if w = 0x00E0 then some (done { m with screen := m.screen.clear })
  else if w = 0x00EE then
    if m.sp = 0 then some (m, some (.stackUnderflow a))
    else do
      let top ← m.slot? (← minus m.sp 1)
      some (done { m with stack := m.stack.tail, pc := top })
  else some (m.illegal w a)

def executeCall? (m : Machine) (w a : UInt16) : Option Outcome :=
  if m.sp = stackDepth then some (m, some (.stackOverflow a))
  else do
    let slot ← within stackDepth m.sp
    let _ ← within byteLimit (slot + 1)
    some (done (← { m with stack := m.pc :: m.stack }.setPc? (nnn w)))

def executeArithmetic? (m : Machine) (w a : UInt16) : Option Outcome := do
  let x ← nibble? w 8
  let vx ← m.reg? x
  let vy ← m.reg? (← nibble? w 4)
  match ← nibble? w 0 with
  | 0x0 => some (done (← m.setReg? x vy))
  | 0x1 => some (done (← m.setReg? x (vx ||| vy)))
  | 0x2 => some (done (← m.setReg? x (vx &&& vy)))
  | 0x3 => some (done (← m.setReg? x (vx ^^^ vy)))
  | 0x4 =>
      some (done (← m.setFlagged? x (vx + vy) (if 0x100 ≤ vx.toNat + vy.toNat then 1 else 0)))
  | 0x5 => some (done (← m.setFlagged? x (vx - vy) (if vy ≤ vx then 1 else 0)))
  | 0x6 => some (done (← m.setFlagged? x (← shiftRight vy 1) (vy &&& 1)))
  | 0x7 => some (done (← m.setFlagged? x (vy - vx) (if vx ≤ vy then 1 else 0)))
  | 0xE => some (done (← m.setFlagged? x (← shiftLeft vy 1) (← shiftRight vy 7)))
  | _ => some (m.illegal w a)

def executeRandom? (m : Machine) (w : UInt16) : Option Machine := do
  let set ← m.setReg? (← nibble? w 8) (Random.byte m.drawn &&& kk w)
  some { set with drawn := m.drawn + 1 }

/-- The rows of a sprite, which are copied to a buffer of fifteen bytes. -/
def sprite? (m : Machine) (height : Nat) : Option (List UInt8) :=
  (List.range height).mapM fun i => do
    let row ← within 15 i
    m.memory.byte? (← within wordLimit (m.index.toNat + row))

def executeDraw? (m : Machine) (w : UInt16) : Option Machine := do
  let vx ← m.reg? (← nibble? w 8)
  let vy ← m.reg? (← nibble? w 4)
  let sprite ← m.sprite? (← nibble? w 0)
  let (screen, collides) ← m.screen.draw? vx.toNat vy.toNat sprite
  { m with screen := screen }.setReg? 0xF (if collides then 1 else 0)

def executeSkipKey? (m : Machine) (w a : UInt16) : Option Outcome := do
  let pressed ← m.keyboard.isPressed? (← m.reg? (← nibble? w 8))
  if kk w = 0x9E then some (done (← m.skipIf? pressed))
  else if kk w = 0xA1 then some (done (← m.skipIf? !pressed))
  else some (m.illegal w a)

def isDelayLoop? (m : Machine) (a : UInt16) (r : Nat) : Option Bool := do
  let skip ← m.memory.word? (← m.offset? a 2)
  let jump ← m.memory.word? (← m.offset? a 4)
  let field ← within wordLimit (r * 0x100)
  some (skip = 0x3000 + field.toUInt16 && jump = 0x1000 + nnn a)

def readDelay? (m : Machine) (r : Nat) (a : UInt16) : Option Machine := do
  let value := m.delay.value
  let read ← m.setReg? r value
  if 0 < value then
    if ← m.isDelayLoop? a r then
      some ({ read with pc := a }.await { WaitFlags.none with delay := true })
    else some read
  else some read

def storeDecimal? (m : Machine) (r : Nat) : Option Machine := do
  let value ← m.reg? r
  let i := m.index.toNat
  let memory ← m.memory.setByte? i (value / 100)
  let memory ← memory.setByte? (← within wordLimit (i + 1)) (value / 10 % 10)
  let memory ← memory.setByte? (← within wordLimit (i + 2)) (value % 10)
  some { m with memory := memory }

def passBlock? (m : Machine) (r : Nat) : Option Machine := do
  some { m with index := ← m.maskIndex? (m.index.toNat + r + 1) }

def saveBlock? (m : Machine) (r : Nat) : Option Machine := do
  let memory ← (List.range (r + 1)).foldlM
    (fun memory i => do
      memory.setByte? (← within wordLimit (m.index.toNat + i)) (← m.reg? i)) m.memory
  { m with memory := memory }.passBlock? r

def restoreBlock? (m : Machine) (r : Nat) : Option Machine := do
  let read ← (List.range (r + 1)).foldlM
    (fun acc i => do
      acc.setReg? i (← m.memory.byte? (← within wordLimit (m.index.toNat + i)))) m
  read.passBlock? r

def executeDevice? (m : Machine) (w a : UInt16) : Option Outcome := do
  let x ← nibble? w 8
  let vx ← m.reg? x
  match (kk w).toNat with
  | 0x07 => some (done (← m.readDelay? x a))
  | 0x0A =>
      let r ← Reg.ofNat? x
      some (done ({ m with keyRegister := r }.await { WaitFlags.none with keyPress := true }))
  | 0x15 => some (done (m.setDelay vx))
  | 0x18 => some (done { m with sound := ⟨vx⟩, beeping := 0 < vx })
  | 0x1E => some (done { m with index := ← m.maskIndex? (m.index.toNat + vx.toNat) })
  | 0x29 =>
      let glyph ← within wordLimit ((vx % 16).toNat * glyphHeight.toNat)
      some (done { m with index := glyph.toUInt16 })
  | 0x33 => some (done (← m.storeDecimal? x))
  | 0x55 => some (done (← m.saveBlock? x))
  | 0x65 => some (done (← m.restoreBlock? x))
  | _ => some (m.illegal w a)

/-- Execute the word `w` at the address `a`. The table of handlers ends behind sixteen entries. -/
def execute? (m : Machine) (w a : UInt16) : Option Outcome := do
  let x ← nibble? w 8
  let y ← nibble? w 4
  let n ← nibble? w 0
  match ← family? w with
  | 0x0 => m.executeSystem? w a
  | 0x1 => some (done (← m.setPc? (nnn w)))
  | 0x2 => m.executeCall? w a
  | 0x3 => some (done (← m.skipIf? ((← m.reg? x) = kk w)))
  | 0x4 => some (done (← m.skipIf? ((← m.reg? x) ≠ kk w)))
  | 0x5 =>
      if n = 0 then some (done (← m.skipIf? ((← m.reg? x) = (← m.reg? y))))
      else some (m.illegal w a)
  | 0x6 => some (done (← m.setReg? x (kk w)))
  | 0x7 => some (done (← m.setReg? x ((← m.reg? x) + kk w)))
  | 0x8 => m.executeArithmetic? w a
  | 0x9 =>
      if n = 0 then some (done (← m.skipIf? ((← m.reg? x) ≠ (← m.reg? y))))
      else some (m.illegal w a)
  | 0xA => some (done { m with index := nnn w })
  | 0xB =>
      let target ← within wordLimit ((nnn w).toNat + (← m.reg? 0).toNat)
      some (done (← m.setPc? target.toUInt16))
  | 0xC => some (done (← m.executeRandom? w))
  | 0xD => some (done (← m.executeDraw? w))
  | 0xE => m.executeSkipKey? w a
  | 0xF => m.executeDevice? w a
  | _ => none

def tick? (m : Machine) : Option Outcome :=
  if m.wait.isEmpty then do
    let a := m.pc
    let w ← m.memory.word? a
    let (next, fault) ← { m with pc := ← m.offset? a 2 }.execute? w a
    match fault with
    | none => some (next, none)
    | some f => some ({ next with pc := a }, some f)
  else some (m, none)

/-! ### Checked events -/

def pulse? (m : Machine) : Option Machine := do
  let (delay, delayEnded) ← m.delay.pulse?
  let (sound, soundEnded) ← m.sound.pulse?
  some { m with
    delay := delay
    wait := if delayEnded then m.wait.remove { WaitFlags.none with delay := true } else m.wait
    sound := sound
    beeping := if soundEnded then false else m.beeping }

def keyPressed? (m : Machine) (code : UInt8) : Option Machine :=
  if m.wait.keyPress then do
    let key ← Key.ofCode? code
    let read ← m.setReg? m.keyRegister.val key.val.toUInt8
    some { read with
      awaitedKey := key
      wait := { m.wait with keyPress := false, keyRelease := true } }
  else some m

def reset? (m : Machine) : Option Machine := do
  some { m.reset with memory := ← Memory.blank? m.memory.size }

/-- A new machine. Its pixels are counted by a size, and a row of them fills whole bytes. -/
def new? (c : Config) : Option Machine := do
  let _ ← within sizeLimit (c.screenWidth * c.screenHeight)
  let memory ← Memory.blank? c.memorySize
  if c.screenWidth % 8 = 0 then Machine.reset? { Machine.new c with memory := memory } else none

end Machine

/-- The machine behind an operation, if the operation does not trap. -/
def Operation.run? (m : Machine) : Operation → Option Machine
  | tick => do some (← m.tick?).1
  | pulse => m.pulse?
  | keyPressed code => m.keyPressed? code
  | keyReleased code => some (m.keyReleased code)
  | holdKey code => do some { m with keyboard := ← m.keyboard.put? code true }
  | letGoKey code => do some { m with keyboard := ← m.keyboard.put? code false }
  | letGoAll => some { m with keyboard := Keyboard.released }
  | reset => m.reset?
  | setPc a => m.setPc? a
  | setIndex a => do some { m with index := ← m.maskIndex? a.toNat }
  | setRegister r value => m.setReg? (r &&& 0xF).toNat value
  | setDelay value => some (m.setDelay value)
  | write a value => do some { m with memory := ← m.memory.setByte? a.toNat value }
  | load a source => do
      match ← m.memory.loadFrom? a source with
      | .ok memory => some { m with memory := memory }
      | .error _ => some m
  | resetMemory => do some { m with memory := ← Memory.blank? m.memory.size }
  | draw x y sprite => do some { m with screen := (← m.screen.draw? x y sprite).1 }
  | clear => some { m with screen := m.screen.clear }
  | takeFrame => some m.takeFrame.2

/-- The coordinates of a sprite's pixels are sizes. All other arguments fit by their types. -/
def Operation.InRange : Operation → Prop
  | draw x y sprite => x + 8 ≤ sizeLimit ∧ y + sprite.length ≤ sizeLimit
  | _ => True

namespace Machine

/-! ### Registers -/

theorem reg_eq (m : Machine) (r : Reg) : m.reg? r.val = some (m.reg r) := by
  simp [reg?, reg]

theorem setReg_eq (m : Machine) (r : Reg) (value : UInt8) :
    m.setReg? r.val value = some (m.setReg r value) :=
  dif_pos r.isLt

theorem setFlag_eq (m : Machine) (value : UInt8) :
    m.setReg? 0xF value = some (m.setReg Reg.flag value) :=
  m.setReg_eq Reg.flag value

theorem setFlagged_eq (m : Machine) (r : Reg) (result flag : UInt8) :
    m.setFlagged? r.val result flag = some (m.setFlagged r result flag) := by
  simp [setFlagged?, setReg_eq, setFlag_eq, setFlagged]

/-- The registers up to `r` have the numbers up to that of `r`. -/
theorem range_eq_upTo (r : Reg) : List.range (r.val + 1) = (upTo r).map Fin.val := by
  revert r
  decide

/-! ### Handlers -/

/-- What the checks rely on. -/
structure InBounds (m : Machine) : Prop where
  room : 80 ≤ m.memory.size
  reach : m.memory.size ≤ wordLimit
  index : m.index.toNat < 0x1000
  depth : m.stack.length ≤ stackDepth
  screen : m.screen.frame.Packed

namespace InBounds

variable {m : Machine}

theorem memory_pos (h : m.InBounds) : 0 < m.memory.size := Nat.lt_of_lt_of_le (by decide) h.room

theorem cell_eq (h : m.InBounds) (i : Nat) : m.memory.cell? i = some (m.memory.wrap i) :=
  rem_eq h.memory_pos

theorem wrap_lt (h : m.InBounds) (i : Nat) : m.memory.wrap i < wordLimit :=
  Nat.lt_of_lt_of_le (Nat.mod_lt _ h.memory_pos) h.reach

theorem offset_eq (h : m.InBounds) (a : UInt16) {k : Nat} (hk : k ≤ 4) :
    m.offset? a k = some (m.offset a k) := by
  have ha := a.toNat_lt
  have hsum : a.toNat + k < sizeLimit := by unfold sizeLimit; omega
  simp [offset?, hsum, h.cell_eq, h.wrap_lt, offset]

theorem setPc_eq (h : m.InBounds) (a : UInt16) : m.setPc? a = some (m.setPc a) := by
  simp [setPc?, h.offset_eq, setPc]

theorem maskIndex_eq (h : m.InBounds) {i : Nat} (hi : i < sizeLimit) :
    m.maskIndex? i = some (m.maskIndex i) := by
  have hmask : m.memory.wrap i % 0x1000 < wordLimit :=
    Nat.lt_of_le_of_lt (Nat.mod_le _ _) (h.wrap_lt i)
  simp [maskIndex?, hi, h.cell_eq, hmask, maskIndex]

theorem skipIf_eq (h : m.InBounds) (condition : Bool) :
    m.skipIf? condition = some (m.skipIf condition) := by
  unfold skipIf? skipIf
  split
  · simp [h.offset_eq]
  · rfl

/-- The index and the fifteen addresses behind it are words that no sum wraps. -/
theorem behind_eq (h : m.InBounds) {i : Nat} (hi : i ≤ 15) :
    within wordLimit (m.index.toNat + i) = some (m.index + i.toUInt16).toNat := by
  have hindex := h.index
  have hsum : m.index.toNat + i < wordLimit := by unfold wordLimit; omega
  have hi' : i.toUInt16.toNat = i := Nat.mod_eq_of_lt (by omega)
  have hback : (m.index + i.toUInt16).toNat = m.index.toNat + i := by
    rw [UInt16.toNat_add, hi']
    exact Nat.mod_eq_of_lt hsum
  rw [within_eq hsum, hback]

theorem executeSystem_eq (h : m.InBounds) (w a : UInt16) :
    m.executeSystem? w a = some (m.executeSystem w a) := by
  have hdepth := h.depth
  unfold executeSystem? executeSystem sp
  split
  · rfl
  · split
    · cases hstack : m.stack with
      | nil => rfl
      | cons top rest =>
          rw [hstack, List.length_cons] at hdepth
          have hslot : rest.length < stackDepth := by omega
          simp [slot?, hstack, hslot]
    · rfl

theorem executeCall_eq (h : m.InBounds) (w a : UInt16) :
    m.executeCall? w a = some (m.executeCall w a) := by
  have hdepth : m.sp ≤ stackDepth := h.depth
  unfold executeCall? executeCall
  split
  · rfl
  · have hslot : m.sp < stackDepth := by omega
    have hcount : m.sp + 1 < byteLimit := Nat.lt_of_le_of_lt hslot (by decide)
    have hpush : InBounds { m with stack := m.pc :: m.stack } := { h with depth := hslot }
    simp [hslot, hcount, hpush.setPc_eq]

theorem executeArithmetic_eq (m : Machine) (w a : UInt16) :
    m.executeArithmetic? w a = some (m.executeArithmetic w a) := by
  unfold executeArithmetic? executeArithmetic
  simp only [nibble_x, nibble_y, nibble_n, reg_eq, Option.bind_eq_bind, Option.bind_some]
  -- the nibble becomes a variable, so that splitting one match selects the branch of the other
  generalize n w = nibble
  split
  · simp [setReg_eq]
  · simp [setReg_eq]
  · simp [setReg_eq]
  · simp [setReg_eq]
  · simp [setFlagged_eq]
  · simp [setFlagged_eq]
  · simp [setFlagged_eq, shiftRight]
  · simp [setFlagged_eq]
  · simp [setFlagged_eq, shiftRight, shiftLeft]
  · simp [*]

theorem executeRandom_eq (m : Machine) (w : UInt16) :
    m.executeRandom? w = some (m.executeRandom w) := by
  simp [executeRandom?, nibble_x, setReg_eq, executeRandom]

theorem sprite_eq (h : m.InBounds) {height : Nat} (hheight : height ≤ 15) :
    m.sprite? height = some (m.sprite height) := by
  refine mapM_eq fun i hi => ?_
  have hrow : i < 15 := Nat.lt_of_lt_of_le (List.mem_range.mp hi) hheight
  simp [hrow, h.behind_eq (Nat.le_of_lt hrow), Memory.byte_eq h.memory_pos, Memory.read]

theorem executeDraw_eq (h : m.InBounds) (w : UInt16) :
    m.executeDraw? w = some (m.executeDraw w) := by
  have hn : n w ≤ 15 := Nat.le_of_lt_succ (Nat.mod_lt _ (by decide))
  obtain ⟨hcolumn, hrow⟩ := m.sprite_le_sizes w
  simp [executeDraw?, nibble_x, nibble_y, nibble_n, reg_eq, h.sprite_eq hn,
    Screen.draw_eq h.screen hcolumn hrow, setFlag_eq, executeDraw]

theorem executeSkipKey_eq (h : m.InBounds) (w a : UInt16) :
    m.executeSkipKey? w a = some (m.executeSkipKey w a) := by
  unfold executeSkipKey? executeSkipKey
  simp only [nibble_x, reg_eq, Keyboard.isPressed_eq, h.skipIf_eq, Option.bind_eq_bind,
    Option.bind_some]
  split
  · rfl
  · split
    · rfl
    · rfl

theorem isDelayLoop_eq (h : m.InBounds) (a : UInt16) (r : Reg) :
    m.isDelayLoop? a r.val = some (m.isDelayLoop a r) := by
  have hfield : r.val * 0x100 < wordLimit := by unfold wordLimit; omega
  have hword : (r.val * 0x100).toUInt16 = r.val.toUInt16 * 0x100 := by
    revert r
    decide
  simp [isDelayLoop?, h.offset_eq, Memory.word_eq h.memory_pos, hfield, hword, isDelayLoop]

theorem readDelay_eq (h : m.InBounds) (r : Reg) (a : UInt16) :
    m.readDelay? r.val a = some (m.readDelay r a) := by
  unfold readDelay? readDelay
  simp only [setReg_eq, h.isDelayLoop_eq, Option.bind_eq_bind, Option.bind_some]
  split
  · rename_i hvalue
    cases hloop : m.isDelayLoop a r with
    | false => simp
    | true => simp [hvalue]
  · rename_i hvalue
    simp [hvalue]

theorem storeDecimal_eq (h : m.InBounds) (r : Reg) :
    m.storeDecimal? r.val = some (m.storeDecimal r) := by
  have hone := h.behind_eq (i := 1) (by decide)
  have htwo := h.behind_eq (i := 2) (by decide)
  simp [storeDecimal?, reg_eq, Memory.setByte_eq, h.memory_pos, hone, htwo, storeDecimal,
    Memory.write]

theorem passBlock_eq (h : m.InBounds) (r : Reg) : m.passBlock? r.val = some (m.passBlock r) := by
  have hindex := h.index
  have hend : m.index.toNat + r.val + 1 < sizeLimit := by unfold sizeLimit; omega
  simp [passBlock?, h.maskIndex_eq hend, passBlock]

theorem saveBlock_eq (h : m.InBounds) (r : Reg) : m.saveBlock? r.val = some (m.saveBlock r) := by
  have hbody : ∀ memory : Memory, InBounds { m with memory := memory } → ∀ i ∈ upTo r,
      (do memory.setByte? (← within wordLimit (m.index.toNat + i.val)) (← m.reg? i.val)) =
          some (memory.write (m.index + i.val.toUInt16) (m.reg i)) ∧
        InBounds { m with memory := memory.write (m.index + i.val.toUInt16) (m.reg i) } := by
    intro memory hm i _
    have hsize := Memory.size_write memory (m.index + i.val.toUInt16) (m.reg i)
    refine ⟨?_, { hm with room := hsize.symm ▸ hm.room, reach := hsize.symm ▸ hm.reach }⟩
    simp [h.behind_eq (Nat.le_of_lt_succ i.isLt), reg_eq, Memory.setByte_eq hm.memory_pos,
      Memory.write]
  obtain ⟨hwrites, hsaved⟩ := foldlM_eq hbody h
  rw [saveBlock?, range_eq_upTo, List.foldlM_map, hwrites]
  exact hsaved.passBlock_eq r

theorem restoreBlock_eq (h : m.InBounds) (r : Reg) :
    m.restoreBlock? r.val = some (m.restoreBlock r) := by
  have hbody : ∀ acc : Machine, acc.InBounds → ∀ i ∈ upTo r,
      (do acc.setReg? i.val
            (← m.memory.byte? (← within wordLimit (m.index.toNat + i.val)))) =
          some (acc.setReg i (m.memory.read (m.index + i.val.toUInt16))) ∧
        (acc.setReg i (m.memory.read (m.index + i.val.toUInt16))).InBounds := by
    intro acc hacc i _
    refine ⟨?_, { hacc with }⟩
    simp [h.behind_eq (Nat.le_of_lt_succ i.isLt), Memory.byte_eq h.memory_pos, setReg_eq,
      Memory.read]
  obtain ⟨hreads, hread⟩ := foldlM_eq hbody h
  rw [restoreBlock?, range_eq_upTo, List.foldlM_map, hreads]
  exact hread.passBlock_eq r

/-- The glyph of a digit lies in the font. -/
theorem glyph_eq (value : UInt8) :
    within wordLimit ((value % 16).toNat * glyphHeight.toNat) =
      some ((value % 16).toUInt16 * glyphHeight).toNat := by
  have hdigit : value.toNat % 16 < 16 := Nat.mod_lt _ (by decide)
  have hproduct : (value % 16).toNat * glyphHeight.toNat = 5 * (value.toNat % 16) :=
    Nat.mul_comm _ _
  rw [toNat_glyph, hproduct]
  exact within_eq (by unfold wordLimit; omega)

theorem executeDevice_eq (h : m.InBounds) (w a : UInt16) :
    m.executeDevice? w a = some (m.executeDevice w a) := by
  have hindex := h.index
  have hadd : m.index.toNat + (m.reg (x w)).toNat < sizeLimit := by
    have hx := (m.reg (x w)).toNat_lt
    unfold sizeLimit
    omega
  unfold executeDevice? executeDevice
  simp only [nibble_x, reg_eq, Option.bind_eq_bind, Option.bind_some]
  generalize (kk w).toNat = code
  split
  · simp [h.readDelay_eq]
  · simp
  · simp
  · simp
  · simp [h.maskIndex_eq hadd]
  · simp only [glyph_eq, Option.bind_some, Nat.toUInt16_eq, UInt16.ofNat_toNat]
  · simp [h.storeDecimal_eq]
  · simp [h.saveBlock_eq]
  · simp [h.restoreBlock_eq]
  · simp [*]

/-- **No handler traps.** -/
theorem execute_eq (h : m.InBounds) (w a : UInt16) : m.execute? w a = some (m.execute w a) := by
  have hfamily := family_lt w
  have htarget : within wordLimit ((nnn w).toNat + (m.reg Reg.first).toNat) =
      some (nnn w + (m.reg Reg.first).toUInt16).toNat := by
    have hnnn : (nnn w).toNat < 0x1000 := by
      rw [toNat_nnn]
      exact Nat.mod_lt _ (by decide)
    have hv0 := (m.reg Reg.first).toNat_lt
    have hsum : (nnn w).toNat + (m.reg Reg.first).toNat < wordLimit := by unfold wordLimit; omega
    rw [within_eq hsum, UInt16.toNat_add, UInt8.toNat_toUInt16]
    exact congrArg some (Nat.mod_eq_of_lt hsum).symm
  have hv0 : m.reg? 0 = some (m.reg Reg.first) := m.reg_eq Reg.first
  unfold execute? execute
  simp only [nibble_x, nibble_y, nibble_n, family_eq, Option.bind_eq_bind, Option.bind_some]
  generalize family w = leading at hfamily
  split
  · simp [h.executeSystem_eq]
  · simp [h.setPc_eq]
  · simp [h.executeCall_eq]
  · simp [reg_eq, h.skipIf_eq]
  · simp [reg_eq, h.skipIf_eq]
  · by_cases hn : n w = 0
    · simp [hn, reg_eq, h.skipIf_eq]
    · simp [hn]
  · simp [setReg_eq]
  · simp [reg_eq, setReg_eq]
  · simp [executeArithmetic_eq]
  · by_cases hn : n w = 0
    · simp [hn, reg_eq, h.skipIf_eq]
    · simp [hn]
  · simp
  · simp only [hv0, htarget, Option.bind_some, Nat.toUInt16_eq, UInt16.ofNat_toNat, h.setPc_eq]
  · simp [executeRandom_eq]
  · simp [h.executeDraw_eq]
  · simp [h.executeSkipKey_eq]
  · simp [h.executeDevice_eq]
  · -- the table has an entry for every leading nibble
    exfalso
    grind

theorem tick_eq (h : m.InBounds) : m.tick? = some m.tick := by
  have hnext : InBounds { m with pc := m.offset m.pc 2 } := { h with }
  unfold tick? tick
  split
  · simp only [Memory.word_eq h.memory_pos, h.offset_eq m.pc (show 2 ≤ 4 by decide),
      hnext.execute_eq, Option.bind_eq_bind, Option.bind_some, nextWord]
    cases (Machine.execute { m with pc := m.offset m.pc 2 } (m.memory.word m.pc) m.pc).2 with
    | none => rfl
    | some fault => rfl
  · rfl

/-! ### Events -/

theorem keyPressed_eq (m : Machine) (code : UInt8) :
    m.keyPressed? code = some (m.keyPressed code) := by
  unfold keyPressed? keyPressed
  split
  · simp [Key.ofCode_eq, setReg_eq]
  · rfl

theorem pulse_eq (m : Machine) : m.pulse? = some m.pulse := by
  simp [pulse?, Timer.pulse_eq, pulse]

theorem reset_eq (h : m.InBounds) : m.reset? = some m.reset := by
  simp [reset?, Memory.blank_eq h.room, reset, Memory.reset]

theorem setRegister_eq (m : Machine) (r value : UInt8) :
    m.setReg? (r &&& 0xF).toNat value = some (m.setRegister r value) := by
  rw [toNat_and_nibble, setReg_eq, setRegister, Reg.ofCode]

/-- **No operation traps.** -/
theorem run_eq (h : m.InBounds) {op : Operation} (hop : op.InRange) :
    op.run? m = some (op.apply m) := by
  cases op with
  | tick => simp [Operation.run?, h.tick_eq, Operation.apply]
  | pulse => exact pulse_eq m
  | keyPressed code => exact keyPressed_eq m code
  | keyReleased code => rfl
  | holdKey code => simp [Operation.run?, Keyboard.press_eq, Operation.apply, holdKey]
  | letGoKey code => simp [Operation.run?, Keyboard.release_eq, Operation.apply, letGoKey]
  | letGoAll => rfl
  | reset => exact h.reset_eq
  | setPc a => exact h.setPc_eq a
  | setIndex a =>
      have ha : a.toNat < sizeLimit := Nat.lt_trans a.toNat_lt (by decide)
      simp [Operation.run?, h.maskIndex_eq ha, Operation.apply, setIndex]
  | setRegister r value => exact setRegister_eq m r value
  | setDelay value => rfl
  | write a value =>
      simp [Operation.run?, Memory.setByte_eq h.memory_pos, Operation.apply, Memory.write]
  | load a source =>
      simp only [Operation.run?, Memory.loadFrom_eq h.memory_pos h.reach, Option.bind_eq_bind,
        Option.bind_some, Operation.apply]
      cases m.memory.loadFrom a source with
      | ok memory => rfl
      | error e => rfl
  | resetMemory =>
      simp [Operation.run?, Memory.blank_eq h.room, Operation.apply, Memory.reset]
  | draw x y sprite =>
      simp [Operation.run?, Screen.draw_eq h.screen hop.1 hop.2, Operation.apply]
  | clear => rfl
  | takeFrame => rfl

end InBounds

end Machine

/-! ### Reachable machines -/

theorem Sound.inBounds {c : Config} {m : Machine} (hc : c.check = .ok c)
    (harea : c.screenWidth * c.screenHeight < sizeLimit) (h : Sound c m) : m.InBounds := by
  obtain ⟨_, hmax, _, hmin, hwidth, hheight, hbytes⟩ := Config.check_eq_ok_iff.mp hc
  have hw : m.screen.frame.width = c.screenWidth := congrArg Prod.fst h.screen
  have hh : m.screen.frame.height = c.screenHeight := congrArg (fun shape => shape.2.1) h.screen
  have hpixels : m.screen.frame.pixels.size = c.screenWidth * c.screenHeight :=
    congrArg (fun shape => shape.2.2) h.screen
  exact
    { room := by rw [h.memory]; exact hmin
      reach := by rw [h.memory]; exact hmax
      index := h.index
      depth := h.depth
      screen :=
        { width := by rw [hw]; exact hwidth
          height := by rw [hh]; exact hheight
          bytes := by rw [hw]; exact hbytes
          pixels := by rw [hpixels, hw, hh]
          area := by rw [hw, hh]; exact harea } }

theorem Machine.new_eq {c : Config} (hc : c.check = .ok c)
    (harea : c.screenWidth * c.screenHeight < sizeLimit) :
    Machine.new? c = some (Machine.new c) := by
  obtain ⟨_, _, _, hmin, _, _, hbytes⟩ := Config.check_eq_ok_iff.mp hc
  have hnew : InBounds (Machine.new c) := (Sound.new hc).inBounds hc harea
  have hreset : (Machine.new c).reset = Machine.new c := by
    simp [reset, new, Memory.reset, Screen.clear, Screen.blank, Frame.blank]
  simp only [new?, within_eq harea, Memory.blank_eq hmin, if_pos hbytes, Option.bind_eq_bind,
    Option.bind_some]
  exact hnew.reset_eq.trans (congrArg some hreset)

/-- **Runs.** However many operations are done to a machine, none of them traps. -/
theorem Machine.runs_eq {c : Config} (hc : c.check = .ok c)
    (harea : c.screenWidth * c.screenHeight < sizeLimit) {ops : List Operation}
    (hops : ∀ op ∈ ops, op.InRange) {m : Machine} (h : Sound c m) :
    ops.foldlM Operation.run? m = some (ops.foldl Operation.apply m) :=
  (foldlM_eq (fun _ hm op hop =>
    ⟨(hm.inBounds hc harea).run_eq (hops op hop), hm.apply hc op⟩) h).1

/-- **Invariant and freedom from traps.** Whatever was done to a machine of a configuration that
passes its check and whose pixels a size can count: the machine keeps the invariant, and whatever
is done next, execution of an instruction included, no step of it traps. -/
theorem Machine.safe_of_reachable {c : Config} (hc : c.check = .ok c)
    (harea : c.screenWidth * c.screenHeight < sizeLimit) {m : Machine} (h : Reachable c m) :
    Machine.new? c = some (Machine.new c) ∧
      Sound c m ∧ m.keyRegister.val ≤ 15 ∧ m.awaitedKey.val ≤ 15 ∧
      m.tick? = some m.tick ∧
      ∀ op : Operation, op.InRange → op.run? m = some (op.apply m) := by
  have hsound := sound_of_reachable hc h
  have hbounds := hsound.inBounds hc harea
  refine ⟨Machine.new_eq hc harea, hsound, ?_, ?_, hbounds.tick_eq, fun op hop => ?_⟩
  · exact Nat.le_of_lt_succ m.keyRegister.isLt
  · exact Nat.le_of_lt_succ m.awaitedKey.isLt
  · exact hbounds.run_eq hop

/-- Behind the call that the glyph of the digit one is, a sprite over the right edge of the
picture. -/
theorem Machine.safe_of_reachable_glyphOne :
    Config.glyphOne.check = .ok .glyphOne ∧
      Config.glyphOne.screenWidth * Config.glyphOne.screenHeight < sizeLimit ∧
      Reachable .glyphOne (Machine.new .glyphOne).tick.1 ∧
      (Operation.draw 7 3 [0xFF]).InRange ∧
      Sound .glyphOne (Machine.new .glyphOne).tick.1 ∧
      (Operation.draw 7 3 [0xFF]).run? (Machine.new .glyphOne).tick.1 =
        some ((Operation.draw 7 3 [0xFF]).apply (Machine.new .glyphOne).tick.1) := by
  have hc : Config.glyphOne.check = .ok .glyphOne := rfl
  have harea : Config.glyphOne.screenWidth * Config.glyphOne.screenHeight < sizeLimit := by decide
  have hreachable : Reachable .glyphOne (Machine.new .glyphOne).tick.1 := Reachable.new.step .tick
  have hrange : (Operation.draw 7 3 [0xFF]).InRange := by
    show 7 + 8 ≤ sizeLimit ∧ 3 + 1 ≤ sizeLimit
    decide
  obtain ⟨_, hsound, _, _, _, hrun⟩ := Machine.safe_of_reachable hc harea hreachable
  exact ⟨hc, harea, hreachable, hrange, hsound, hrun _ hrange⟩

end Chip8
