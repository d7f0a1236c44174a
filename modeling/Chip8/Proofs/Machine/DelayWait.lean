import Chip8.Proofs.Machine.Refinement
import Mathlib.Logic.Function.Iterate

/-! # Delay waits

When a machine is parked on its delay timer, and when it goes on.

* **Parking.** Only reading a running timer in front of a loop parks a machine (`parks_of_tick`).
* **Jumping back.** The loop is recognized by the low twelve bits of its address, which are the
  address itself below `0x1000` and another address from there on (`parking_jumps_back_iff`).
* **Waking.** Each pulse takes one off the timer of a parked machine, and the one that brings it to
  zero wakes the machine. A timer that was set to zero in the meantime has no such pulse any more
  (`delay_wait_of_reachable`). -/

namespace Chip8

open Instruction Word

/-- Whether an operation sets the timer to zero that the machine is waiting for. -/
def Operation.CutsShort (m : Machine) (op : Operation) : Prop :=
  op = .setDelay 0 ∧ m.wait.delay = true

/-- A machine that is reached without cutting a wait for the timer short. -/
inductive Unhurried (c : Config) : Machine → Prop where
  | new : Unhurried c (Machine.new c)
  | step {m : Machine} (h : Unhurried c m) (op : Operation) (hop : ¬op.CutsShort m) :
      Unhurried c (op.apply m)

namespace Timer

variable {t : Timer}

/-- The pulse that brings a timer to zero is the one that finds it at one. -/
theorem ended_pulse (t : Timer) : t.pulse.2 = decide (t.value.toNat = 1) := by
  have hone : t.value - 1 = 0 ↔ t.value.toNat = 1 := by
    have hlt := t.value.toNat_lt
    rw [← UInt8.toNat_inj, Machine.toNat_difference]
    show (t.value.toNat + 0x100 - 1) % 0x100 = 0 ↔ _
    omega
  unfold pulse
  split
  · rename_i hzero
    simp [hzero]
  · exact decide_eq_decide.mpr hone

end Timer

namespace Machine

variable {c : Config} {m : Machine} {a : UInt16} {x : Reg} {i : Instruction}

/-! ### Ticks at an offset -/

theorem offset_add (hc : c.check = .ok c) (h : Sound c m) (a : UInt16) (j k : Nat) :
    ((m.offset a j).toNat + k) % m.memory.size = (a.toNat + (j + k)) % m.memory.size := by
  rw [h.toNat_offset hc, ← h.memory, Nat.mod_add_mod, Nat.add_assoc]

theorem wordAt_offset (hc : c.check = .ok c) (h : Sound c m) {k : Nat} (hpc : m.pc = m.offset a k) :
    m.wordAt m.pc.toNat = m.wordAt (a.toNat + k) := by
  apply wordAt_congr
  rw [hpc]
  exact offset_add hc h a k 0

/-- A tick performs the instruction that stands at the offset at which the program counter is. -/
theorem tick_at (hc : c.check = .ok c) (h : Sound c m) (hwait : m.wait = .none) {k : Nat}
    (hpc : m.pc = m.offset a k) (hdecode : decode (m.wordAt (a.toNat + k)) = some i) :
    m.tick = m.perform i := by
  rw [tick_eq_stepDecoded hc h hwait, stepDecoded, wordAt_offset hc h hpc, hdecode]
  rfl

/-! ### Parking -/

/-- The machine parked on its timer, with the timer in the register. -/
def park (m : Machine) (x : Reg) : Machine :=
  { m.put x m.delay.value.toNat with wait := { WaitFlags.none with delay := true } }

@[simp] theorem pc_park (m : Machine) (x : Reg) : (m.park x).pc = m.pc := by
  unfold park put
  rfl

@[simp] theorem delay_park (m : Machine) (x : Reg) : (m.park x).delay = m.delay := by
  unfold park put
  rfl

@[simp] theorem wait_setDelay (m : Machine) (value : UInt8) :
    (m.setDelay value).wait = m.wait := rfl

theorem perform_ldFromDelay_of_loop (h : m.delay.value ≠ 0 ∧ m.loopsOn x) :
    m.perform (.ldFromDelay x) = done (m.park x) :=
  if_pos h

theorem perform_ldFromDelay_of_not_loop (h : ¬(m.delay.value ≠ 0 ∧ m.loopsOn x)) :
    m.perform (.ldFromDelay x) = done (m.next.put x m.delay.value.toNat) :=
  if_neg h

/-- Every other instruction leaves the wait for the timer as it is. -/
theorem delay_wait_perform (hi : ∀ x, i ≠ .ldFromDelay x) (hbefore : m.wait.delay = false) :
    (m.perform i).1.wait.delay = false := by
  cases i with
  | ldFromDelay x => exact absurd rfl (hi x)
  | ldKey x => rfl
  | ret =>
      unfold perform
      cases m.stack with
      | nil => exact hbefore
      | cons top rest => exact hbefore
  | call t =>
      unfold perform
      dsimp only
      split
      · exact hbefore
      · exact hbefore
  | _ => exact hbefore

theorem parks_of_perform (hbefore : m.wait.delay = false)
    (hafter : (m.perform i).1.wait.delay = true) :
    ∃ x, m.delay.value ≠ 0 ∧ m.loopsOn x ∧ m.perform i = done (m.park x) := by
  by_cases hi : ∃ x, i = .ldFromDelay x
  · obtain ⟨x, rfl⟩ := hi
    by_cases hloop : m.delay.value ≠ 0 ∧ m.loopsOn x
    · exact ⟨x, hloop.1, hloop.2, perform_ldFromDelay_of_loop hloop⟩
    · rw [perform_ldFromDelay_of_not_loop hloop] at hafter
      exact absurd (hbefore.symm.trans hafter) Bool.false_ne_true
  · rw [delay_wait_perform (fun x hx => hi ⟨x, hx⟩) hbefore] at hafter
    cases hafter

/-- A tick that begins a wait for the timer reads a running timer in front of a loop. -/
theorem parks_of_tick (hc : c.check = .ok c) (h : Sound c m) (hbefore : m.wait.delay = false)
    (hafter : m.tick.1.wait.delay = true) :
    m.wait = .none ∧ ∃ x, m.delay.value ≠ 0 ∧ m.loopsOn x ∧ m.tick = done (m.park x) := by
  by_cases hwait : m.wait = .none
  · have htick : m.tick = m.performDecoded (m.wordAt m.pc.toNat) (decode (m.wordAt m.pc.toNat)) :=
      tick_eq_stepDecoded hc h hwait
    refine ⟨hwait, ?_⟩
    cases hdecode : decode (m.wordAt m.pc.toNat) with
    | none =>
        rw [hdecode] at htick
        rw [htick] at hafter
        exact absurd (hbefore.symm.trans hafter) Bool.false_ne_true
    | some i =>
        rw [hdecode] at htick
        rw [htick] at hafter ⊢
        exact parks_of_perform hbefore hafter
  · have hempty : m.wait.isEmpty = false := by
      rw [← Bool.not_eq_true, WaitFlags.isEmpty_iff]
      exact hwait
    rw [tick_of_waiting hempty] at hafter
    exact absurd (hbefore.symm.trans hafter) Bool.false_ne_true

/-! ### A machine in front of a loop -/

/-- A delay loop on `V0` for the address `a`. -/
def loopProgram (a : UInt16) : List UInt8 :=
  [0xF0, 0x07, 0x30, 0x00, 0x10 + (a.toNat / 0x100 % 0x10).toUInt8, a.toUInt8]

theorem wordAt_store {memory : Memory} {b k : Nat} {bs : List UInt8}
    (hmemory : m.memory = memory.store b bs) (hfits : bs.length ≤ memory.size) {high low : UInt8}
    (hhigh : bs[k]? = some high) (hlow : bs[k + 1]? = some low) :
    m.wordAt (b + k) = (0x100 * high.toNat + low.toNat).toUInt16 := by
  rw [wordAt, hmemory, Memory.byte_store hfits hhigh, Nat.add_assoc, Memory.byte_store hfits hlow]

/-- A machine in front of a delay loop, with its delay timer set. -/
def inFront (c : Config) (timer : UInt8) : Machine :=
  (Operation.setDelay timer).apply
    ((Operation.load c.loadAddress ⟨loopProgram c.loadAddress, none⟩).apply (new c))

theorem reachable_inFront (c : Config) (timer : UInt8) : Reachable c (inFront c timer) :=
  .step (.step .new _) _

theorem inFront_eq (hc : c.check = .ok c) (timer : UInt8) :
    inFront c timer = { new c with
      memory := (Memory.blank c.memorySize).store c.loadAddress.toNat (loopProgram c.loadAddress)
      delay := ⟨timer⟩ } := by
  have hfits : (loopProgram c.loadAddress).length ≤ (new c).memory.size := by
    have hmin := (memorySize_of_check hc).1
    show 6 ≤ (Memory.blank c.memorySize).size
    rw [Memory.size_blank]
    omega
  rw [inFront, Operation.apply_load _ _ hfits]
  rfl

/-- The loop stands where the machine starts. -/
theorem decode_inFront (hc : c.check = .ok c) (timer : UInt8) :
    decode ((inFront c timer).wordAt c.loadAddress.toNat) = some (.ldFromDelay Reg.first) ∧
      decode ((inFront c timer).wordAt (c.loadAddress.toNat + 2)) = some (.seByte Reg.first 0) ∧
      decode ((inFront c timer).wordAt (c.loadAddress.toNat + 4)) =
        some (.jp (c.loadAddress.toNat % 0x1000).toUInt16) := by
  have hmemory : (inFront c timer).memory =
      (Memory.blank c.memorySize).store c.loadAddress.toNat (loopProgram c.loadAddress) := by
    rw [inFront_eq hc]
  have hfits : (loopProgram c.loadAddress).length ≤ (Memory.blank c.memorySize).size := by
    have hmin := (memorySize_of_check hc).1
    rw [Memory.size_blank]
    show 6 ≤ c.memorySize
    omega
  have hread := wordAt_store (k := 0) hmemory hfits rfl rfl
  have hskip := wordAt_store (k := 2) hmemory hfits rfl rfl
  have hjump := wordAt_store (k := 4) hmemory hfits rfl rfl
  refine ⟨?_, ?_, ?_⟩
  · rw [← Nat.add_zero c.loadAddress.toNat, hread]
    rfl
  · rw [hskip]
    rfl
  · rw [hjump, decode_eq_jp_iff]
    have hlow : c.loadAddress.toUInt8.toNat = c.loadAddress.toNat % 0x100 := toNat_kk _
    have hhigh : (0x10 + (c.loadAddress.toNat / 0x100 % 0x10).toUInt8 : UInt8).toNat =
        0x10 + c.loadAddress.toNat / 0x100 % 0x10 := by
      rw [UInt8.toNat_add, Nat.toUInt8_eq, UInt8.toNat_ofNat']
      show (0x10 + _ % 0x100) % 0x100 = _
      omega
    rw [hlow, hhigh]
    simp only [Nat.toUInt16_eq, UInt16.toNat_ofNat']
    omega

/-- The machine parks at once. -/
theorem tick_inFront (hc : c.check = .ok c) (htimer : timer ≠ 0) :
    (inFront c timer).loopsOn Reg.first ∧
      (inFront c timer).tick = done ((inFront c timer).park Reg.first) := by
  have hsound := sound_of_reachable hc (reachable_inFront c timer)
  have heq := inFront_eq hc timer
  obtain ⟨hread, hskip, hjump⟩ := decode_inFront hc timer
  have hpc : (inFront c timer).pc = c.loadAddress := by rw [heq]; rfl
  have hwait : (inFront c timer).wait = .none := by rw [heq]; rfl
  have hdelay : (inFront c timer).delay.value ≠ 0 := by rw [heq]; exact htimer
  have hloop : (inFront c timer).loopsOn Reg.first := by
    rw [loopsOn, hpc]
    exact ⟨hskip, hjump⟩
  rw [← hpc] at hread
  have htick : (inFront c timer).tick = (inFront c timer).perform (.ldFromDelay Reg.first) := by
    rw [tick_eq_stepDecoded hc hsound hwait, stepDecoded, hread]
    rfl
  exact ⟨hloop, htick.trans (perform_ldFromDelay_of_loop ⟨hdelay, hloop⟩)⟩

theorem waits_inFront (hc : c.check = .ok c) (htimer : timer ≠ 0) :
    (inFront c timer).wait.delay = false ∧ (inFront c timer).tick.1.wait.delay = true ∧
      (inFront c timer).tick.1.delay.value = timer := by
  have hpark := (tick_inFront hc htimer).2
  have hdelay : (inFront c timer).delay.value = timer := by rw [inFront_eq hc]
  refine ⟨by rw [inFront_eq hc]; rfl, by rw [hpark]; rfl, ?_⟩
  rw [hpark]
  show ((inFront c timer).park Reg.first).delay.value = timer
  rw [delay_park, hdelay]

/-! ### Jumping back -/

/-- The machine with the program counter on the third word from here, the jump of a loop. -/
def atJump (m : Machine) : Machine := { m with pc := m.offset m.pc 4 }

/-- The jump of a loop that parks a machine goes to the low twelve bits of the loop's address. -/
theorem pc_of_loop_jump (hc : c.check = .ok c) (h : Sound c m) (hwait : m.wait = .none)
    (hloop : m.loopsOn x) :
    m.atJump.tick.1.pc.toNat = m.pc.toNat % 0x1000 := by
  have hjump : Sound c m.atJump := h.with_pc (h.offset_lt hc m.pc 4)
  have htick : m.atJump.tick = done (m.atJump.jumpTo (m.pc.toNat % 0x1000).toUInt16.toNat) :=
    tick_at hc hjump hwait rfl hloop.2
  have hsize := (memorySize_of_check hc).2.1
  have hpc := h.pc
  have htarget : (m.pc.toNat % 0x1000).toUInt16.toNat = m.pc.toNat % 0x1000 := by
    rw [Nat.toUInt16_eq, UInt16.toNat_ofNat']
    omega
  have hmod : m.pc.toNat % 0x1000 % m.memory.size = m.pc.toNat % 0x1000 := by
    apply Nat.mod_eq_of_lt
    rw [h.memory]
    omega
  rw [htick, done, jumpTo, htarget]
  show (m.pc.toNat % 0x1000 % m.memory.size).toUInt16.toNat = _
  rw [hmod, htarget]

theorem loop_jumps_back_iff (hc : c.check = .ok c) (h : Sound c m) (hwait : m.wait = .none)
    (hloop : m.loopsOn x) :
    m.atJump.tick.1.pc = m.pc ↔ m.pc.toNat < 0x1000 := by
  rw [← UInt16.toNat_inj, pc_of_loop_jump hc h hwait hloop]
  omega

/-- **Parking.** The program counter stays where the machine is parked. The jump of the loop that it
is parked in goes to the low twelve bits of that address, and so back to it exactly if the address
has no more than twelve bits. -/
theorem parking_jumps_back_iff (hc : c.check = .ok c) (h : Reachable c m)
    (hbefore : m.wait.delay = false) (hafter : m.tick.1.wait.delay = true) :
    m.tick.1.pc = m.pc ∧
      m.atJump.tick.1.pc.toNat = m.pc.toNat % 0x1000 ∧
      (m.atJump.tick.1.pc = m.pc ↔ m.pc.toNat < 0x1000) := by
  have hsound := sound_of_reachable hc h
  obtain ⟨hwait, x, _, hloop, htick⟩ := parks_of_tick hc hsound hbefore hafter
  have hstays : m.tick.1.pc = m.pc := by
    rw [htick]
    exact pc_park m x
  exact ⟨hstays, pc_of_loop_jump hc hsound hwait hloop, loop_jumps_back_iff hc hsound hwait hloop⟩

theorem parking_jumps_back_iff_glyphOne :
    Config.glyphOne.check = .ok .glyphOne ∧ Reachable .glyphOne (inFront .glyphOne 2) ∧
      (inFront .glyphOne 2).wait.delay = false ∧ (inFront .glyphOne 2).tick.1.wait.delay = true ∧
      (inFront .glyphOne 2).atJump.tick.1.pc = (inFront .glyphOne 2).pc := by
  have hc : Config.glyphOne.check = .ok .glyphOne := rfl
  have hreachable := reachable_inFront .glyphOne 2
  obtain ⟨hbefore, hafter, _⟩ := waits_inFront hc (show (2 : UInt8) ≠ 0 by decide)
  obtain ⟨_, _, hback⟩ := parking_jumps_back_iff hc hreachable hbefore hafter
  have hlow : (inFront .glyphOne 2).pc.toNat < 0x1000 := by
    rw [inFront_eq hc]
    decide
  exact ⟨hc, hreachable, hbefore, hafter, hback.mpr hlow⟩

/-- A memory of more than twelve bits, with programs at the first address behind them. -/
def highConfig : Config := ⟨0x1010, 8, 1, 0x1000⟩

/-- The jump of the loop at `0x1000` goes to address zero, and the machine parks all the same. -/
theorem parking_jumps_elsewhere :
    highConfig.check = .ok highConfig ∧ Reachable highConfig (inFront highConfig 2) ∧
      (inFront highConfig 2).wait.delay = false ∧ (inFront highConfig 2).tick.1.wait.delay = true ∧
      (inFront highConfig 2).atJump.tick.1.pc ≠ (inFront highConfig 2).pc := by
  have hc : highConfig.check = .ok highConfig := rfl
  have hreachable := reachable_inFront highConfig 2
  have hwait : (inFront highConfig 2).wait = .none := by rw [inFront_eq hc]; rfl
  have hhigh : ¬(inFront highConfig 2).pc.toNat < 0x1000 := by
    rw [inFront_eq hc]
    decide
  obtain ⟨hbefore, hafter, _⟩ := waits_inFront hc (show (2 : UInt8) ≠ 0 by decide)
  have hloop := (tick_inFront hc (show (2 : UInt8) ≠ 0 by decide)).1
  have hback := loop_jumps_back_iff hc (sound_of_reachable hc hreachable) hwait hloop
  exact ⟨hc, hreachable, hbefore, hafter, fun h => hhigh (hback.mp h)⟩

/-! ### Waking -/

/-- A pulse changes nothing that is awaited but the timer. -/
theorem wait_pulse (m : Machine) :
    m.pulse.wait = { m.wait with delay := m.wait.delay && !m.delay.pulse.2 } := by
  have hwait : m.pulse.wait = if m.delay.pulse.2 then
      m.wait.remove { WaitFlags.none with delay := true } else m.wait := rfl
  rw [hwait]
  cases m.delay.pulse.2 with
  | false => simp
  | true => simp [WaitFlags.remove, WaitFlags.none]

theorem toNat_delay_iterate_pulse (m : Machine) (k : Nat) :
    (pulse^[k] m).delay.value.toNat = m.delay.value.toNat - k := by
  induction k with
  | zero => rfl
  | succ k ih =>
      have hpulse : (pulse (pulse^[k] m)).delay.value.toNat =
          (pulse^[k] m).delay.value.toNat - 1 := Timer.pulse_value _
      rw [Function.iterate_succ_apply', hpulse, ih, Nat.sub_sub]

/-- A running timer is awaited for as many pulses as it counts. -/
theorem wait_iterate_pulse (hruns : m.delay.value ≠ 0) (k : Nat) :
    (pulse^[k] m).wait =
      { m.wait with delay := m.wait.delay && decide (k < m.delay.value.toNat) } := by
  have hpos : m.delay.value.toNat ≠ 0 := fun h => hruns (UInt8.toNat_inj.mp h)
  induction k with
  | zero => simp [Nat.pos_of_ne_zero hpos]
  | succ k ih =>
      have hflag : (decide (k < m.delay.value.toNat) && !decide (m.delay.value.toNat - k = 1)) =
          decide (k + 1 < m.delay.value.toNat) := by
        by_cases hk : k + 1 < m.delay.value.toNat
        · simp [hk]
          omega
        · simp [hk]
          omega
      rw [Function.iterate_succ_apply', wait_pulse, ih, Timer.ended_pulse,
        toNat_delay_iterate_pulse, Bool.and_assoc, hflag]

/-- No pulse ends the wait for a timer that stands at zero. -/
theorem wait_iterate_pulse_of_ended (hended : m.delay.value = 0) (k : Nat) :
    (pulse^[k] m).wait = m.wait := by
  induction k with
  | zero => rfl
  | succ k ih =>
      have hnever : (pulse^[k] m).delay.pulse.2 = false := by
        rw [Timer.ended_pulse, toNat_delay_iterate_pulse, hended]
        simp
      rw [Function.iterate_succ_apply', wait_pulse, ih, hnever]
      simp

/-! ### Running timers -/

/-- A timer that is awaited runs. -/
def AwaitsRunning (m : Machine) : Prop := m.wait.delay = true → m.delay.value ≠ 0

namespace AwaitsRunning

theorem tick (hc : c.check = .ok c) (hs : Sound c m) (h : m.AwaitsRunning) :
    m.tick.1.AwaitsRunning := by
  intro hafter
  cases hbefore : m.wait.delay with
  | false =>
      obtain ⟨_, x, hruns, _, htick⟩ := parks_of_tick hc hs hbefore hafter
      rw [htick]
      exact hruns
  | true =>
      rw [tick_of_waiting (by simp [WaitFlags.isEmpty, hbefore])]
      exact h hbefore

theorem pulse (h : m.AwaitsRunning) : m.pulse.AwaitsRunning := by
  intro hafter
  have hvalue : m.pulse.delay.value.toNat = m.delay.value.toNat - 1 := Timer.pulse_value m.delay
  rw [wait_pulse, Timer.ended_pulse] at hafter
  obtain ⟨hbefore, hlast⟩ : m.wait.delay = true ∧ ¬m.delay.value.toNat = 1 := by simpa using hafter
  have hruns : m.delay.value.toNat ≠ 0 := fun hz => h hbefore (UInt8.toNat_inj.mp hz)
  intro hzero
  rw [hzero] at hvalue
  change 0 = m.delay.value.toNat - 1 at hvalue
  omega

theorem keyPressed (h : m.AwaitsRunning) (code : UInt8) : (m.keyPressed code).AwaitsRunning := by
  unfold Machine.keyPressed
  split
  · exact h
  · exact h

theorem keyReleased (h : m.AwaitsRunning) (code : UInt8) : (m.keyReleased code).AwaitsRunning := by
  unfold Machine.keyReleased
  split
  · exact h
  · exact h

theorem apply (hc : c.check = .ok c) (hs : Sound c m) (h : m.AwaitsRunning) {op : Operation}
    (hop : ¬op.CutsShort m) : (op.apply m).AwaitsRunning := by
  cases op with
  | tick => exact h.tick hc hs
  | pulse => exact h.pulse
  | keyPressed code => exact h.keyPressed code
  | keyReleased code => exact h.keyReleased code
  | reset => exact fun hwait => by cases hwait
  | setDelay value =>
      intro hafter hended
      have hzero : value = 0 := hended
      exact hop ⟨by rw [hzero], hafter⟩
  | load a source =>
      rw [Operation.apply]
      split
      · exact h
      · exact h
  | resetMemory => exact fun hafter => h hafter
  | _ => exact h

end AwaitsRunning

theorem awaitsRunning_of_unhurried (hc : c.check = .ok c) (h : Unhurried c m) :
    Sound c m ∧ m.AwaitsRunning := by
  induction h with
  | new => exact ⟨Sound.new hc, fun hwait => by cases hwait⟩
  | step _ op hop ih => exact ⟨ih.1.apply hc op, ih.2.apply hc ih.1 hop⟩

/-- **Waking.** A machine that awaits a running timer goes on after as many pulses as the timer
counts, and not before. A timer at zero never wakes a machine, but the machine gets there only by
setting the timer to zero while it is awaited. -/
theorem delay_wait_of_reachable (hc : c.check = .ok c) (h : Reachable c m)
    (hwait : m.wait.delay = true) :
    (Unhurried c m → m.delay.value ≠ 0) ∧
      (m.delay.value ≠ 0 →
        (∀ k < m.delay.value.toNat, (pulse^[k] m).wait.delay = true) ∧
          (pulse^[m.delay.value.toNat] m).wait = .none ∧
          (pulse^[m.delay.value.toNat] m).tick = (pulse^[m.delay.value.toNat] m).stepDecoded) ∧
      (m.delay.value = 0 → ∀ k, (pulse^[k] m).wait.delay = true) := by
  have hsound := sound_of_reachable hc h
  refine ⟨fun hunhurried => (awaitsRunning_of_unhurried hc hunhurried).2 hwait, ?_, ?_⟩
  · intro hruns
    have hpulses : ∀ k, Sound c (pulse^[k] m) := by
      intro k
      induction k with
      | zero => exact hsound
      | succ k ih =>
          rw [Function.iterate_succ_apply']
          exact ih.pulse
    have hnone : (pulse^[m.delay.value.toNat] m).wait = .none := by
      obtain ⟨hpress, hrelease, _⟩ := hsound.wait
      rw [hwait] at hpress hrelease
      simp at hpress hrelease
      simp [wait_iterate_pulse hruns, hpress, hrelease, WaitFlags.none]
    refine ⟨fun k hk => ?_, hnone, tick_eq_stepDecoded hc (hpulses _) hnone⟩
    simp [wait_iterate_pulse hruns, hwait, hk]
  · intro hended k
    rw [wait_iterate_pulse_of_ended hended, hwait]

theorem unhurried_inFront (c : Config) : Unhurried c (inFront c 2) := by
  refine .step (.step .new _ ?_) _ ?_
  · rintro ⟨hop, -⟩
    cases hop
  · rintro ⟨hop, -⟩
    exact absurd hop (by decide)

theorem delay_wait_of_reachable_glyphOne :
    Config.glyphOne.check = .ok .glyphOne ∧ Reachable .glyphOne (inFront .glyphOne 2).tick.1 ∧
      (inFront .glyphOne 2).tick.1.wait.delay = true ∧
      (pulse^[1] (inFront .glyphOne 2).tick.1).wait.delay = true ∧
      (pulse^[2] (inFront .glyphOne 2).tick.1).wait = .none := by
  have hc : Config.glyphOne.check = .ok .glyphOne := rfl
  have hreachable : Reachable .glyphOne (inFront .glyphOne 2).tick.1 :=
    (reachable_inFront .glyphOne 2).step .tick
  obtain ⟨_, hwait, hvalue⟩ := waits_inFront hc (show (2 : UInt8) ≠ 0 by decide)
  have hunhurried : Unhurried .glyphOne (inFront .glyphOne 2).tick.1 :=
    (unhurried_inFront .glyphOne).step .tick fun hop => by cases hop.1
  obtain ⟨hruns, hwakes, _⟩ := delay_wait_of_reachable hc hreachable hwait
  obtain ⟨hbefore, hafter, _⟩ := hwakes (hruns hunhurried)
  rw [hvalue] at hbefore hafter
  exact ⟨hc, hreachable, hwait, hbefore 1 (by decide), hafter⟩

/-- Setting the awaited timer to zero leaves the machine waiting for good. -/
theorem delay_wait_without_end :
    Config.glyphOne.check = .ok .glyphOne ∧
      Reachable .glyphOne ((inFront .glyphOne 2).tick.1.setDelay 0) ∧
      ((inFront .glyphOne 2).tick.1.setDelay 0).wait.delay = true ∧
      ((inFront .glyphOne 2).tick.1.setDelay 0).delay.value = 0 ∧
      ∀ k, (pulse^[k] ((inFront .glyphOne 2).tick.1.setDelay 0)).wait.delay = true := by
  have hc : Config.glyphOne.check = .ok .glyphOne := rfl
  have hwait : ((inFront .glyphOne 2).tick.1.setDelay 0).wait.delay = true := by
    rw [wait_setDelay]
    exact (waits_inFront hc (by decide)).2.1
  refine ⟨hc, ((reachable_inFront .glyphOne 2).step .tick).step (.setDelay 0), hwait, rfl, ?_⟩
  intro k
  rw [wait_iterate_pulse_of_ended rfl, hwait]

end Machine

end Chip8
