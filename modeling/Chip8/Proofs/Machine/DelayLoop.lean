import Chip8.Proofs.Machine.DelayWait

/-! # Delay loops

A machine that is parked in a delay loop cannot be told from one that spins in it.

* **Loop.** `HoldsLoop m a x`: the three words from `a` on read the delay timer into `Vx`, skip on a
  zero in it, and jump back to `a`. The loop may lie across the end of the memory, and the jump may
  reach `a` by wrapping.
* **Spinning.** `tickSpinning` is a tick of a machine that never parks.
* **Phases.** `InLoop` says where in the loop a machine stands and what it knows of the timer there.
  Ticks of either kind and signals from outside keep a machine in the loop or let it leave it for
  the word behind, and change nothing but what `blur` hides.
* `parking_unobservable` puts this together for a parking and a spinning machine that run side by
  side, each at a pace of its own. -/

namespace Chip8

open Instruction Word

/-- Whether an operation is a timer pulse or something that happens to keys. -/
def Operation.isSignal : Operation → Bool
  | pulse | keyPressed _ | keyReleased _ | holdKey _ | letGoKey _ | letGoAll => true
  | _ => false

namespace Machine

variable {c : Config} {m n : Machine} {a : UInt16} {x : Reg}

/-! ### The loop -/

/-- The words of a delay loop on the register `x` stand at `a` and behind it. -/
structure HoldsLoop (m : Machine) (a : UInt16) (x : Reg) : Prop where
  read : decode (m.wordAt a.toNat) = some (.ldFromDelay x)
  skip : decode (m.wordAt (a.toNat + 2)) = some (.seByte x 0)
  jump : ∃ t : UInt16, decode (m.wordAt (a.toNat + 4)) = some (.jp t) ∧
    t.toNat % m.memory.size = a.toNat

/-- A tick of a machine that never parks: it reads the delay timer and goes on. -/
def tickSpinning (m : Machine) : Outcome :=
  if m.wait.isEmpty then
    match decode m.nextWord with
    | some (.ldFromDelay r) => done ({ m with pc := m.offset m.pc 2 }.setReg r m.delay.value)
    | _ => m.tick
  else (m, none)

/-- Two machines that start as `m`, the first of which parks. Signals reach both of them; each ticks
at its own pace, and no more once it stands behind the loop. -/
inductive SideBySide (m : Machine) : Machine → Machine → Prop where
  | start : SideBySide m m m
  | signal {p s : Machine} (h : SideBySide m p s) (op : Operation) (hop : op.isSignal = true) :
      SideBySide m (op.apply p) (op.apply s)
  | tick {p s : Machine} (h : SideBySide m p s) (hinside : p.pc ≠ m.offset m.pc 6) :
      SideBySide m p.tick.1 s
  | spin {p s : Machine} (h : SideBySide m p s) (hinside : s.pc ≠ m.offset m.pc 6) :
      SideBySide m p s.tickSpinning.1

/-- The machine without what a delay loop changes: the program counter, the register of the loop and
the wait for the timer. -/
def blur (m : Machine) (x : Reg) : Machine :=
  { m.put x 0 with pc := 0, wait := { m.wait with delay := false } }

/-- Whether ticks of the given kind lead out of the loop at `a`, after no more than `j` of them. -/
def LeavesWithin (f : Machine → Machine) (a : UInt16) (j : Nat) (m : Machine) : Prop :=
  ∃ k ≤ j, (f^[k] m).pc = m.offset a 6

/-! ### Blurred machines -/

@[simp] theorem memory_blur (m : Machine) (x : Reg) : (m.blur x).memory = m.memory := by
  unfold blur put
  rfl

theorem reg_blur (m : Machine) (x i : Reg) :
    (m.blur x).reg i = if i = x then 0 else m.reg i := by
  rw [blur, reg]
  exact reg_put m x i 0

@[simp] theorem delay_blur (m : Machine) (x : Reg) : (m.blur x).delay = m.delay := by
  unfold blur put
  rfl

theorem memory_of_blur (hblur : n.blur x = m.blur x) : n.memory = m.memory := by
  rw [← memory_blur n x, hblur, memory_blur]

theorem put_put (m : Machine) (x : Reg) (u v : Nat) : (m.put x u).put x v = m.put x v := by
  have hregisters : (fun i => if i = x then v.toUInt8 else (m.put x u).reg i) =
      fun i => if i = x then v.toUInt8 else m.reg i := by
    funext i
    rw [reg_put]
    by_cases hi : i = x
    · simp [hi]
    · simp [hi]
  unfold put at hregisters ⊢
  rw [hregisters]

theorem blur_put (m : Machine) (x : Reg) (v : Nat) : (m.put x v).blur x = m.blur x := by
  rw [blur, put_put]
  rfl

/-- What is hidden decides between machines that are equal otherwise. -/
theorem eq_of_blur_eq (hblur : m.blur x = n.blur x) (hpc : m.pc = n.pc) (hreg : m.reg x = n.reg x)
    (hwait : m.wait = n.wait) : m = n := by
  have hregisters : m.registers = n.registers := by
    apply Vector.ext
    intro j hj
    let i : Reg := ⟨j, hj⟩
    have hother : (m.blur x).reg i = (n.blur x).reg i := by rw [hblur]
    rw [reg_blur, reg_blur] at hother
    by_cases hi : i = x
    · show m.reg i = n.reg i
      rw [hi, hreg]
    · rw [if_neg hi, if_neg hi] at hother
      exact hother
  have hrebuild : ∀ k : Machine,
      k = { k.blur x with pc := k.pc, registers := k.registers, wait := k.wait } := by
    intro k
    cases k
    rfl
  rw [hrebuild m, hrebuild n, hblur, hpc, hregisters, hwait]

/-- A signal does the same to what is not hidden, as long as no key is awaited. -/
theorem blur_signal {op : Operation} (hop : op.isSignal = true) (hpress : m.wait.keyPress = false)
    (hrelease : m.wait.keyRelease = false) : (op.apply m).blur x = op.apply (m.blur x) := by
  cases op with
  | pulse =>
      show m.pulse.blur x = (m.blur x).pulse
      cases hended : m.delay.pulse.2 with
      | false => simp [pulse, blur, put, reg, hended]
      | true => simp [pulse, blur, put, reg, hended, WaitFlags.remove, WaitFlags.none]
  | keyPressed code =>
      show (m.keyPressed code).blur x = (m.blur x).keyPressed code
      have hblurred : (m.blur x).wait.keyPress = false := hpress
      simp [keyPressed, hpress, hblurred]
  | keyReleased code =>
      show (m.keyReleased code).blur x = (m.blur x).keyReleased code
      have hblurred : (m.blur x).wait.keyRelease = false := hrelease
      simp [keyReleased, hrelease, hblurred]
  | holdKey code => rfl
  | letGoKey code => rfl
  | letGoAll => rfl
  | _ => cases hop

/-! ### Addresses in the loop -/

theorem HoldsLoop.congr (h : m.HoldsLoop a x) (hmemory : n.memory = m.memory) :
    n.HoldsLoop a x := by
  have hword : ∀ b, n.wordAt b = m.wordAt b := by
    intro b
    rw [wordAt, wordAt, hmemory]
  obtain ⟨hread, hskip, t, hjump, ht⟩ := h
  exact ⟨by rw [hword, hread], by rw [hword, hskip], t, by rw [hword, hjump], by rw [hmemory, ht]⟩

theorem offset_ne (hc : c.check = .ok c) (h : Sound c m) (a : UInt16) {j k : Nat} (hjk : j < k)
    (hk : k < 0x10) : m.offset a j ≠ m.offset a k := by
  intro heq
  have hroom := h.room hc
  have hnat : (m.offset a j).toNat = (m.offset a k).toNat := by rw [heq]
  rw [h.toNat_offset hc, h.toNat_offset hc, ← h.memory] at hnat
  have hne : m.memory.wrap (a.toNat + j + (k - j)) ≠ m.memory.wrap (a.toNat + j) :=
    Memory.wrap_ne (by omega) (by omega)
  rw [Nat.add_assoc, Nat.add_sub_cancel' (by omega)] at hne
  exact hne hnat.symm

theorem offset_zero (hc : c.check = .ok c) (h : Sound c m) (ha : a.toNat < m.memory.size) :
    m.offset a 0 = a := by
  apply UInt16.toNat_inj.mp
  rw [h.toNat_offset hc, ← h.memory, Nat.add_zero, Nat.mod_eq_of_lt ha]

theorem offset_congr (hmemory : n.memory = m.memory) (a : UInt16) (k : Nat) :
    n.offset a k = m.offset a k := by
  rw [offset, offset, hmemory]

/-! ### Phases -/

/-- Where a machine stands that is in the delay loop at `a`. -/
inductive Phase (m : Machine) (a : UInt16) (x : Reg) : Prop where
  /-- In front of the `LD`. -/
  | reading (hpc : m.pc = a) (hwait : m.wait = .none)
  /-- Parked on the `LD`, while the timer runs. -/
  | parked (hpc : m.pc = a) (hwait : m.wait = { WaitFlags.none with delay := true })
      (hruns : m.delay.value ≠ 0)
  /-- In front of the `SE`. A zero was read only from a timer that has run out. -/
  | testing (hpc : m.pc = m.offset a 2) (hwait : m.wait = .none)
      (hzero : m.reg x = 0 → m.delay.value = 0)
  /-- In front of the `JP`. -/
  | turning (hpc : m.pc = m.offset a 4) (hwait : m.wait = .none)
  /-- Behind the loop. -/
  | behind (hpc : m.pc = m.offset a 6) (hwait : m.wait = .none) (hzero : m.reg x = 0)
      (hended : m.delay.value = 0)

/-- A machine in the delay loop on `x` at `a`, or on the word behind the loop. -/
structure InLoop (c : Config) (a : UInt16) (x : Reg) (m : Machine) : Prop where
  sound : Sound c m
  start : a.toNat < m.memory.size
  loop : m.HoldsLoop a x
  phase : m.Phase a x

namespace InLoop

theorem noKeys (h : InLoop c a x m) : m.wait.keyPress = false ∧ m.wait.keyRelease = false := by
  cases h.phase with
  | reading hpc hwait | parked hpc hwait | testing hpc hwait | turning hpc hwait
  | behind hpc hwait => simp [hwait, WaitFlags.none]

/-- The word behind the loop is none of the loop's own, so a machine that stands there has left. -/
theorem behind_of_pc (hc : c.check = .ok c) (h : InLoop c a x m) (hpc : m.pc = m.offset a 6) :
    m.wait = .none ∧ m.reg x = 0 := by
  have hstart : m.offset a 0 = a := offset_zero hc h.sound h.start
  have hne : ∀ k < 6, m.offset a k ≠ m.offset a 6 := by
    intro k hk
    exact offset_ne hc h.sound a hk (by omega)
  cases h.phase with
  | reading ha | parked ha => exact absurd (hstart.trans (ha.symm.trans hpc)) (hne 0 (by omega))
  | testing ha => exact absurd (ha.symm.trans hpc) (hne 2 (by omega))
  | turning ha => exact absurd (ha.symm.trans hpc) (hne 4 (by omega))
  | behind _ hwait hzero => exact ⟨hwait, hzero⟩

/-- Nothing that is hidden matters for the loop but the phase. -/
theorem of_blur (h : InLoop c a x m) (hsound : Sound c n) (hblur : n.blur x = m.blur x)
    (hphase : n.Phase a x) : InLoop c a x n := by
  have hmemory := memory_of_blur hblur
  have hstart : a.toNat < n.memory.size := by rw [hmemory]; exact h.start
  exact ⟨hsound, hstart, h.loop.congr hmemory, hphase⟩

end InLoop

/-! ### Ticks in the loop -/

theorem blur_park (hwait : m.wait = .none) : (m.park x).blur x = m.blur x := by
  rw [← blur_put m x m.delay.value.toNat]
  simp [blur, park, put, reg, hwait, WaitFlags.none]

theorem blur_jump (m : Machine) (x : Reg) (p : UInt16) :
    ({ m with pc := p } : Machine).blur x = m.blur x := rfl

namespace InLoop

/-- A tick leads to a machine in the loop if nothing changes that is not hidden. -/
theorem of_tick (hc : c.check = .ok c) (h : InLoop c a x m) (htick : m.tick = done n)
    (hblur : n.blur x = m.blur x) (hphase : n.Phase a x) :
    InLoop c a x m.tick.1 ∧ m.tick.1.blur x = m.blur x := by
  have hsound : Sound c m.tick.1 := h.sound.tick hc
  rw [htick] at hsound ⊢
  exact ⟨h.of_blur hsound hblur hphase, hblur⟩

theorem reg_read (m : Machine) (x : Reg) :
    (m.next.put x m.delay.value.toNat).reg x = m.delay.value := by
  rw [reg_put, if_pos rfl]
  exact UInt8.ofNat_toNat

theorem phase_read (hpc : m.pc = a) (hwait : m.wait = .none) :
    (m.next.put x m.delay.value.toNat).Phase a x := by
  have hnext : (m.next.put x m.delay.value.toNat).pc = m.offset a 2 := by rw [← hpc]; rfl
  refine .testing hnext hwait fun hzero => ?_
  rw [reg_read] at hzero
  exact hzero

theorem tick_reading (hc : c.check = .ok c) (h : InLoop c a x m) (hpc : m.pc = a)
    (hwait : m.wait = .none) : m.tick = m.perform (.ldFromDelay x) := by
  have hstart : m.pc = m.offset a 0 := by rw [offset_zero hc h.sound h.start, hpc]
  exact tick_at hc h.sound hwait hstart h.loop.read

theorem tick_testing (hc : c.check = .ok c) (h : InLoop c a x m) (hpc : m.pc = m.offset a 2)
    (hwait : m.wait = .none) :
    m.tick = done { m with pc := m.offset a (if m.reg x = 0 then 6 else 4) } := by
  have htick : m.tick = done (m.nextOrSkip (m.value x = 0)) :=
    tick_at hc h.sound hwait hpc h.loop.skip
  have hjump : ∀ k, m.jumpTo (m.pc.toNat + k) = { m with pc := m.offset a (2 + k) } := by
    intro k
    rw [jumpTo, hpc, offset_add hc h.sound]
    rfl
  have hzero : m.value x = 0 ↔ m.reg x = 0 := UInt8.toNat_inj (b := 0)
  rw [htick, nextOrSkip]
  by_cases hreg : m.reg x = 0
  · rw [if_pos (hzero.mpr hreg), if_pos hreg, hjump]
  · rw [if_neg (fun hv => hreg (hzero.mp hv)), if_neg hreg, hjump]

theorem tick_turning (hc : c.check = .ok c) (h : InLoop c a x m) (hpc : m.pc = m.offset a 4)
    (hwait : m.wait = .none) : m.tick = done { m with pc := a } := by
  obtain ⟨t, hjump, ht⟩ := h.loop.jump
  have htick : m.tick = done (m.jumpTo t.toNat) := tick_at hc h.sound hwait hpc hjump
  have hword : a.toNat.toUInt16 = a := UInt16.ofNat_toNat
  rw [htick, jumpTo, ht, hword]

/-- **A tick** inside the loop stays in it, or leaves it at its end, and changes only what is
hidden. -/
theorem tick (hc : c.check = .ok c) (h : InLoop c a x m) (hinside : m.pc ≠ m.offset a 6) :
    InLoop c a x m.tick.1 ∧ m.tick.1.blur x = m.blur x := by
  cases h.phase with
  | reading hpc hwait =>
      have htick := h.tick_reading hc hpc hwait
      by_cases hparks : m.delay.value ≠ 0 ∧ m.loopsOn x
      · rw [perform_ldFromDelay_of_loop hparks] at htick
        have hstay : (m.park x).pc = a := by rw [pc_park, hpc]
        have hruns : (m.park x).delay.value ≠ 0 := by rw [delay_park]; exact hparks.1
        exact h.of_tick hc htick (blur_park hwait) (.parked hstay rfl hruns)
      · rw [perform_ldFromDelay_of_not_loop hparks] at htick
        exact h.of_tick hc htick (blur_put m.next x _) (phase_read hpc hwait)
  | parked hpc hwait hruns =>
      have htick : m.tick = (m, none) := tick_of_waiting (by rw [hwait]; rfl)
      rw [htick]
      exact ⟨h, rfl⟩
  | testing hpc hwait hzero =>
      have htick := h.tick_testing hc hpc hwait
      by_cases hreg : m.reg x = 0
      · rw [if_pos hreg] at htick
        exact h.of_tick hc htick (blur_jump m x _) (.behind rfl hwait hreg (hzero hreg))
      · rw [if_neg hreg] at htick
        exact h.of_tick hc htick (blur_jump m x _) (.turning rfl hwait)
  | turning hpc hwait =>
      exact h.of_tick hc (h.tick_turning hc hpc hwait) (blur_jump m x _) (.reading rfl hwait)
  | behind hpc => exact absurd hpc hinside

end InLoop

/-! ### Spinning -/

/-- Where no timer is read, spinning makes no difference. -/
theorem tickSpinning_eq_tick (hread : ∀ r, decode m.nextWord ≠ some (.ldFromDelay r)) :
    m.tickSpinning = m.tick := by
  unfold tickSpinning
  split
  · split
    · rename_i r hdecode
      exact absurd hdecode (hread r)
    · rfl
  · rename_i hwaiting
    rw [tick_of_waiting (Bool.not_eq_true _ ▸ hwaiting)]

theorem tickSpinning_of_waiting (hwait : m.wait ≠ .none) : m.tickSpinning = (m, none) :=
  if_neg fun hempty => hwait (WaitFlags.isEmpty_iff.mp hempty)

theorem tickSpinning_of_read (hwait : m.wait = .none)
    (hdecode : decode m.nextWord = some (.ldFromDelay x)) :
    m.tickSpinning = done (m.next.put x m.delay.value.toNat) := by
  have hempty : m.wait.isEmpty = true := WaitFlags.isEmpty_iff.mpr hwait
  unfold tickSpinning
  rw [if_pos hempty, hdecode]
  exact congrArg done (setReg_eq_put m.next x m.delay.value)

/-- A timer that has run out is read without parking anyway. -/
theorem tickSpinning_of_ended (hc : c.check = .ok c) (h : Sound c m) (hended : m.delay.value = 0) :
    m.tickSpinning = m.tick := by
  by_cases hwait : m.wait = .none
  · by_cases hread : ∃ r, decode m.nextWord = some (.ldFromDelay r)
    · obtain ⟨r, hdecode⟩ := hread
      have htick : m.tick = m.perform (.ldFromDelay r) := by
        rw [nextWord, word_eq_wordAt] at hdecode
        rw [tick_eq_stepDecoded hc h hwait, stepDecoded, hdecode]
        rfl
      rw [tickSpinning_of_read hwait hdecode, htick,
        perform_ldFromDelay_of_not_loop fun hparks => hparks.1 hended]
    · exact tickSpinning_eq_tick fun r hdecode => hread ⟨r, hdecode⟩
  · have hwaiting : m.wait.isEmpty = false :=
      Bool.eq_false_iff.mpr fun hempty => hwait (WaitFlags.isEmpty_iff.mp hempty)
    rw [tickSpinning_of_waiting hwait, tick_of_waiting hwaiting]

namespace InLoop

/-- The instruction in front of which a machine in the loop stands. -/
theorem decode_nextWord (hc : c.check = .ok c) (h : InLoop c a x m) {k : Nat}
    (hpc : m.pc = m.offset a k) {i : Instruction} (hi : decode (m.wordAt (a.toNat + k)) = some i) :
    decode m.nextWord = some i := by
  rw [nextWord, word_eq_wordAt, wordAt_offset hc h.sound hpc, hi]

/-- **A spinning tick** inside the loop stays in it as well. -/
theorem spin (hc : c.check = .ok c) (h : InLoop c a x m) (hinside : m.pc ≠ m.offset a 6) :
    InLoop c a x m.tickSpinning.1 ∧ m.tickSpinning.1.blur x = m.blur x := by
  cases h.phase with
  | reading hpc hwait =>
      have hstart : m.pc = m.offset a 0 := by rw [offset_zero hc h.sound h.start, hpc]
      have hdecode := h.decode_nextWord hc hstart h.loop.read
      have hnext : Sound c (m.next.put x m.delay.value.toNat) := by
        rw [← setReg_eq_put]
        exact (h.sound.with_pc (h.sound.offset_lt hc m.pc 2)).setReg x m.delay.value
      have hblur : (m.next.put x m.delay.value.toNat).blur x = m.blur x := blur_put m.next x _
      rw [tickSpinning_of_read hwait hdecode]
      exact ⟨h.of_blur hnext hblur (phase_read hpc hwait), hblur⟩
  | parked hpc hwait hruns =>
      rw [tickSpinning_of_waiting (by simp [hwait, WaitFlags.none])]
      exact ⟨h, rfl⟩
  | testing hpc hwait hzero =>
      have hdecode := h.decode_nextWord hc hpc h.loop.skip
      rw [tickSpinning_eq_tick (by simp [hdecode])]
      exact h.tick hc hinside
  | turning hpc hwait =>
      obtain ⟨t, hjump, _⟩ := h.loop.jump
      have hdecode := h.decode_nextWord hc hpc hjump
      rw [tickSpinning_eq_tick (by simp [hdecode])]
      exact h.tick hc hinside
  | behind hpc => exact absurd hpc hinside

/-! ### Signals in the loop -/

theorem phase_pulse (h : m.Phase a x) : m.pulse.Phase a x := by
  have hvalue : m.pulse.delay.value.toNat = m.delay.value.toNat - 1 := Timer.pulse_value m.delay
  have hended : m.delay.value = 0 → m.pulse.delay.value = 0 := by
    intro hzero
    apply UInt8.toNat_inj.mp
    rw [hvalue, hzero]
    rfl
  have hnone : m.wait = .none → m.pulse.wait = .none := by
    intro hwait
    rw [wait_pulse, hwait]
    rfl
  cases h with
  | reading hpc hwait => exact .reading hpc (hnone hwait)
  | parked hpc hwait hruns =>
      have hpulse := wait_pulse m
      rw [hwait, Timer.ended_pulse] at hpulse
      by_cases hlast : m.delay.value.toNat = 1
      · simp [hlast] at hpulse
        exact .reading hpc hpulse
      · simp [hlast] at hpulse
        have hpos : m.delay.value.toNat ≠ 0 := fun hz => hruns (UInt8.toNat_inj.mp hz)
        refine .parked hpc hpulse fun hzero => ?_
        rw [hzero] at hvalue
        change 0 = m.delay.value.toNat - 1 at hvalue
        omega
  | testing hpc hwait hzero => exact .testing hpc (hnone hwait) fun hreg => hended (hzero hreg)
  | turning hpc hwait => exact .turning hpc (hnone hwait)
  | behind hpc hwait hzero hover => exact .behind hpc (hnone hwait) hzero (hended hover)

/-- The keyboard does not matter for where a machine stands. -/
theorem phase_keyboard (h : m.Phase a x) (keys : Keyboard) :
    ({ m with keyboard := keys } : Machine).Phase a x := by
  cases h with
  | reading hpc hwait => exact .reading hpc hwait
  | parked hpc hwait hruns => exact .parked hpc hwait hruns
  | testing hpc hwait hzero => exact .testing hpc hwait hzero
  | turning hpc hwait => exact .turning hpc hwait
  | behind hpc hwait hzero hended => exact .behind hpc hwait hzero hended

/-- **A signal** keeps a machine in the loop. -/
theorem signal (hc : c.check = .ok c) (h : InLoop c a x m) {op : Operation}
    (hop : op.isSignal = true) : InLoop c a x (op.apply m) := by
  have hsound : Sound c (op.apply m) := h.sound.apply hc op
  obtain ⟨hpress, hrelease⟩ := h.noKeys
  cases op with
  | pulse => exact ⟨hsound, h.start, h.loop.congr rfl, phase_pulse h.phase⟩
  | keyPressed code =>
      have hsame : m.keyPressed code = m := by simp [Machine.keyPressed, hpress]
      show InLoop c a x (m.keyPressed code)
      rw [hsame]
      exact h
  | keyReleased code =>
      have hsame : m.keyReleased code = m := by simp [Machine.keyReleased, hrelease]
      show InLoop c a x (m.keyReleased code)
      rw [hsame]
      exact h
  | holdKey code => exact ⟨hsound, h.start, h.loop.congr rfl, phase_keyboard h.phase _⟩
  | letGoKey code => exact ⟨hsound, h.start, h.loop.congr rfl, phase_keyboard h.phase _⟩
  | letGoAll => exact ⟨hsound, h.start, h.loop.congr rfl, phase_keyboard h.phase _⟩
  | _ => cases hop

/-! ### Leaving the loop -/

/-- The places of the loop are not the word behind it. -/
theorem inside (hc : c.check = .ok c) (h : InLoop c a x m) {k : Nat} (hk : k < 6)
    (hpc : m.pc = m.offset a k) : m.pc ≠ m.offset a 6 := by
  rw [hpc]
  exact offset_ne hc h.sound a hk (by omega)

/-- A kind of ticks that are the machine's own once the timer has run out. -/
def TicksWhenEnded (c : Config) (a : UInt16) (x : Reg) (f : Machine → Machine) : Prop :=
  ∀ n, InLoop c a x n → n.delay.value = 0 → f n = n.tick.1

section Leaves

variable {f : Machine → Machine}

theorem leaves_of_tick (hc : c.check = .ok c) (hf : TicksWhenEnded c a x f) (h : InLoop c a x m)
    (hinside : m.pc ≠ m.offset a 6) (hended : m.delay.value = 0) {j : Nat}
    (hleaves : LeavesWithin f a j m.tick.1) : LeavesWithin f a (j + 1) m := by
  obtain ⟨k, hk, hpc⟩ := hleaves
  have hmemory : m.tick.1.memory = m.memory := memory_of_blur (h.tick hc hinside).2
  refine ⟨k + 1, by omega, ?_⟩
  rw [Function.iterate_succ_apply, hf m h hended, hpc, offset_congr hmemory]

/-- A zero in the register skips the jump. -/
theorem leaves_testing_zero (hc : c.check = .ok c) (hf : TicksWhenEnded c a x f)
    (h : InLoop c a x m) (hpc : m.pc = m.offset a 2) (hwait : m.wait = .none)
    (hended : m.delay.value = 0) (hreg : m.reg x = 0) : LeavesWithin f a 1 m := by
  have htick := h.tick_testing hc hpc hwait
  rw [if_pos hreg] at htick
  refine h.leaves_of_tick hc hf (h.inside hc (by omega) hpc) hended ⟨0, by omega, ?_⟩
  rw [htick]
  rfl

/-- The timer at zero is read as a zero. -/
theorem leaves_reading (hc : c.check = .ok c) (hf : TicksWhenEnded c a x f) (h : InLoop c a x m)
    (hpc : m.pc = a) (hwait : m.wait = .none) (hended : m.delay.value = 0) :
    LeavesWithin f a 2 m := by
  have hstart : m.pc = m.offset a 0 := by rw [offset_zero hc h.sound h.start, hpc]
  have hinside := h.inside hc (by omega) hstart
  have htick := h.tick_reading hc hpc hwait
  rw [perform_ldFromDelay_of_not_loop (fun hparks => hparks.1 hended)] at htick
  have hnext := (h.tick hc hinside).1
  refine h.leaves_of_tick hc hf hinside hended ?_
  rw [htick] at hnext ⊢
  refine leaves_testing_zero hc hf hnext ?_ hwait hended ((reg_read m x).trans hended)
  rw [← hpc]
  rfl

theorem leaves_turning (hc : c.check = .ok c) (hf : TicksWhenEnded c a x f) (h : InLoop c a x m)
    (hpc : m.pc = m.offset a 4) (hwait : m.wait = .none) (hended : m.delay.value = 0) :
    LeavesWithin f a 3 m := by
  have hinside := h.inside hc (by omega) hpc
  have hnext := (h.tick hc hinside).1
  refine h.leaves_of_tick hc hf hinside hended ?_
  rw [h.tick_turning hc hpc hwait] at hnext ⊢
  exact leaves_reading hc hf hnext rfl hwait hended

/-- **Leaving.** Once the timer has run out, no more than four ticks lead out of the loop. -/
theorem leaves (hc : c.check = .ok c) (hf : TicksWhenEnded c a x f) (h : InLoop c a x m)
    (hended : m.delay.value = 0) : LeavesWithin f a 4 m := by
  cases h.phase with
  | reading hpc hwait =>
      obtain ⟨k, hk, hleaves⟩ := h.leaves_reading hc hf hpc hwait hended
      exact ⟨k, by omega, hleaves⟩
  | parked hpc hwait hruns => exact absurd hended hruns
  | testing hpc hwait hzero =>
      by_cases hreg : m.reg x = 0
      · obtain ⟨k, hk, hleaves⟩ := h.leaves_testing_zero hc hf hpc hwait hended hreg
        exact ⟨k, by omega, hleaves⟩
      · have hinside := h.inside hc (by omega) hpc
        have hnext := (h.tick hc hinside).1
        have htick := h.tick_testing hc hpc hwait
        rw [if_neg hreg] at htick
        refine h.leaves_of_tick hc hf hinside hended ?_
        rw [htick] at hnext ⊢
        exact leaves_turning hc hf hnext rfl hwait hended
  | turning hpc hwait =>
      obtain ⟨k, hk, hleaves⟩ := h.leaves_turning hc hf hpc hwait hended
      exact ⟨k, by omega, hleaves⟩
  | behind hpc => exact ⟨0, by omega, hpc⟩

end Leaves

/-- The program counter stands in the loop or behind it. -/
theorem pc_mem (h : InLoop c a x m) :
    m.pc ∈ [a, m.offset a 2, m.offset a 4, m.offset a 6] := by
  cases h.phase with
  | reading hpc | parked hpc | testing hpc | turning hpc | behind hpc => simp [hpc]

end InLoop

/-! ### Side by side -/

theorem memory_signal {op : Operation} (hop : op.isSignal = true) :
    (op.apply m).memory = m.memory := by
  cases op with
  | pulse => rfl
  | keyPressed code =>
      show (m.keyPressed code).memory = m.memory
      unfold keyPressed
      split
      · rfl
      · rfl
  | keyReleased code =>
      show (m.keyReleased code).memory = m.memory
      unfold keyReleased
      split
      · rfl
      · rfl
  | holdKey code => rfl
  | letGoKey code => rfl
  | letGoAll => rfl
  | _ => cases hop

/-- What holds at every moment of two machines that run side by side. -/
theorem inLoop_of_sideBySide (hc : c.check = .ok c) (h : InLoop c m.pc x m) {p s : Machine}
    (hside : SideBySide m p s) :
    InLoop c m.pc x p ∧ InLoop c m.pc x s ∧ p.blur x = s.blur x ∧ p.memory = m.memory := by
  induction hside with
  | start => exact ⟨h, h, rfl, rfl⟩
  | signal _ op hop ih =>
      obtain ⟨hp, hs, hblur, hmemory⟩ := ih
      refine ⟨hp.signal hc hop, hs.signal hc hop, ?_, (memory_signal hop).trans hmemory⟩
      rw [blur_signal hop hp.noKeys.1 hp.noKeys.2, blur_signal hop hs.noKeys.1 hs.noKeys.2, hblur]
  | tick _ hinside ih =>
      obtain ⟨hp, hs, hblur, hmemory⟩ := ih
      rw [← offset_congr hmemory] at hinside
      obtain ⟨htick, hkeeps⟩ := hp.tick hc hinside
      exact ⟨htick, hs, hkeeps.trans hblur, (memory_of_blur hkeeps).trans hmemory⟩
  | spin _ hinside ih =>
      obtain ⟨hp, hs, hblur, hmemory⟩ := ih
      rw [← offset_congr ((memory_of_blur hblur).symm.trans hmemory)] at hinside
      obtain ⟨hspin, hkeeps⟩ := hs.spin hc hinside
      exact ⟨hp, hspin, hblur.trans hkeeps.symm, hmemory⟩

/-- **Parking cannot be observed.** A parking and a spinning machine that run side by side agree at
every moment on all that is not hidden, and on everything once both have left the loop, which they
do when the timer has run out. -/
theorem parking_unobservable (hc : c.check = .ok c) (hm : Reachable c m) (hwait : m.wait = .none)
    (hloop : m.HoldsLoop m.pc x) {p s : Machine} (h : SideBySide m p s) :
    (p.blur x = s.blur x ∧
        p.pc ∈ [m.pc, m.offset m.pc 2, m.offset m.pc 4, m.offset m.pc 6] ∧
        s.pc ∈ [m.pc, m.offset m.pc 2, m.offset m.pc 4, m.offset m.pc 6]) ∧
      (p.pc = m.offset m.pc 6 → s.pc = m.offset m.pc 6 →
        p = s ∧ p.reg x = 0 ∧ p.wait = .none) ∧
      (p.delay.value = 0 →
        LeavesWithin (fun n => n.tick.1) m.pc 4 p ∧
          LeavesWithin (fun n => n.tickSpinning.1) m.pc 4 s) := by
  have hsound := sound_of_reachable hc hm
  have hstart : m.pc.toNat < m.memory.size := by rw [hsound.memory]; exact hsound.pc
  obtain ⟨hp, hs, hblur, hmemory⟩ :=
    inLoop_of_sideBySide hc ⟨hsound, hstart, hloop, .reading rfl hwait⟩ h
  have hmemory' : s.memory = m.memory := (memory_of_blur hblur).symm.trans hmemory
  refine ⟨⟨hblur, ?_, ?_⟩, ?_, ?_⟩
  · have hmem := hp.pc_mem
    simpa only [offset_congr hmemory] using hmem
  · have hmem := hs.pc_mem
    simpa only [offset_congr hmemory'] using hmem
  · intro hpleft hsleft
    obtain ⟨hpwait, hpreg⟩ := hp.behind_of_pc hc (hpleft.trans (offset_congr hmemory _ _).symm)
    obtain ⟨hswait, hsreg⟩ := hs.behind_of_pc hc (hsleft.trans (offset_congr hmemory' _ _).symm)
    refine ⟨eq_of_blur_eq hblur ?_ ?_ ?_, hpreg, hpwait⟩
    · rw [hpleft, hsleft]
    · rw [hpreg, hsreg]
    · rw [hpwait, hswait]
  · intro hended
    have hsame : s.delay.value = 0 := by
      rw [← delay_blur s x, ← hblur, delay_blur, hended]
    refine ⟨hp.leaves hc (fun n _ _ => rfl) hended, hs.leaves hc (fun n hn hzero => ?_) hsame⟩
    rw [tickSpinning_of_ended hc hn.sound hzero]

theorem holdsLoop_inFront (hc : c.check = .ok c) (timer : UInt8)
    (hlow : c.loadAddress.toNat < 0x1000) :
    (inFront c timer).HoldsLoop (inFront c timer).pc Reg.first := by
  obtain ⟨hread, hskip, hjump⟩ := decode_inFront hc timer
  obtain ⟨-, -, hload⟩ := memorySize_of_check hc
  have hpc : (inFront c timer).pc = c.loadAddress := by rw [inFront_eq hc]; rfl
  have hsize : (inFront c timer).memory.size = c.memorySize :=
    (sound_of_reachable hc (reachable_inFront c timer)).memory
  have htarget : (c.loadAddress.toNat % 0x1000).toUInt16.toNat = c.loadAddress.toNat := by
    rw [Nat.mod_eq_of_lt hlow, Nat.toUInt16_eq, UInt16.ofNat_toNat]
  rw [hpc]
  refine ⟨hread, hskip, _, hjump, ?_⟩
  rw [htarget, hsize, Nat.mod_eq_of_lt hload]

/-- The smallest memory, with programs at its last two bytes and behind them at the first ones. -/
def straddling : Config := ⟨80, 8, 1, 78⟩

/-- Two pulses while the machine is parked, then the way out. -/
def parkedPast (m : Machine) : Machine := m.tick.1.pulse.pulse.tick.1.tick.1

/-- Two pulses while a spinning machine is in front of the jump, then once more through the loop. -/
def spunPast (m : Machine) : Machine :=
  m.tickSpinning.1.tickSpinning.1.pulse.pulse.tickSpinning.1.tickSpinning.1.tickSpinning.1

theorem parking_unobservable_straddling :
    straddling.check = .ok straddling ∧ Reachable straddling (inFront straddling 2) ∧
      (inFront straddling 2).wait = .none ∧
      (inFront straddling 2).HoldsLoop (inFront straddling 2).pc Reg.first ∧
      SideBySide (inFront straddling 2) (inFront straddling 2).parkedPast
        (inFront straddling 2).spunPast ∧
      (inFront straddling 2).parkedPast = (inFront straddling 2).spunPast := by
  have hc : straddling.check = .ok straddling := rfl
  have hreachable := reachable_inFront straddling 2
  have hwait : (inFront straddling 2).wait = .none := by rw [inFront_eq hc]; rfl
  have hloop := holdsLoop_inFront hc 2 (by decide)
  have hside : SideBySide (inFront straddling 2) (inFront straddling 2).parkedPast
      (inFront straddling 2).spunPast := by
    refine .spin (.spin (.spin (.tick (.tick (.signal (.signal (.spin (.spin (.tick .start ?_)
      ?_) ?_) .pulse rfl) .pulse rfl) ?_) ?_) ?_) ?_) ?_
    all_goals decide +kernel
  obtain ⟨_, hboth, _⟩ := parking_unobservable hc hreachable hwait hloop hside
  refine ⟨hc, hreachable, hwait, hloop, hside, (hboth ?_ ?_).1⟩
  all_goals decide +kernel

end Machine

end Chip8
