import Chip8.Proofs.Machine.DelayLoop
import Chip8.Proofs.Machine.Fault

/-! # Key waits

What a machine does from the instruction that awaits a key to the one behind it.

* **Phases.** First a press is awaited, then the release of the key that was pressed, then the wait
  is over. `KeyPhase.after` says which phase an operation leads to. It looks at the operation only,
  so the phase behind a list of operations is known without running a machine.
* **States.** `atPhase` is the machine in each phase, made from the one that began to wait. Timers,
  beep and keyboard go on while it waits; `still` leaves them out.
* `still_apply` is the step, `still_run` the run: what is not left out is that of the phase.
* `InPhase` adds what does nothing in a phase and how the machine goes on, and
  `key_wait_of_reachable` that waits for keys begin in no other way. -/

namespace Chip8

open Instruction

/-- How far a wait for a key has come. -/
inductive KeyPhase where
  /-- A press of any key is awaited. -/
  | press
  /-- The release of the key that was pressed is awaited. -/
  | release (key : Key)
  /-- The key was pressed and released. -/
  | ended (key : Key)
deriving DecidableEq, Repr

namespace KeyPhase

def isEnded : KeyPhase → Bool
  | ended _ => true
  | _ => false

/-- The first press counts, whatever the key. -/
def pressed : KeyPhase → UInt8 → KeyPhase
  | press, code => release (Key.ofCode code)
  | phase, _ => phase

/-- The first release of the pressed key counts. -/
def released : KeyPhase → UInt8 → KeyPhase
  | release key, code => if Key.ofCode code = key then ended key else release key
  | phase, _ => phase

/-- The phase behind an operation, if it belongs to the wait: ticks do until the wait is over, and
pulses and whatever happens to keys always do. -/
def after (phase : KeyPhase) : Operation → Option KeyPhase
  | .tick => if phase.isEnded then none else some phase
  | .keyPressed code => some (phase.pressed code)
  | .keyReleased code => some (phase.released code)
  | .pulse | .holdKey _ | .letGoKey _ | .letGoAll => some phase
  | _ => none

/-- What is awaited in a phase. -/
def flags : KeyPhase → WaitFlags
  | press => { WaitFlags.none with keyPress := true }
  | release _ => { WaitFlags.none with keyRelease := true }
  | ended _ => .none

theorem delay_flags (phase : KeyPhase) : phase.flags.delay = false := by
  cases phase with
  | press | release key | ended key => rfl

theorem flags_eq_none_iff {phase : KeyPhase} : phase.flags = .none ↔ phase.isEnded = true := by
  cases phase with
  | press | release key | ended key => simp [flags, isEnded, WaitFlags.none]

end KeyPhase

namespace Machine

variable {c : Config} {m n : Machine} {x : Reg} {phase later : KeyPhase}
  {op : Operation} {ops : List Operation} {i : Instruction}

/-- The machine that has begun to await a key for the register. -/
def awaitKey (m : Machine) (x : Reg) : Machine :=
  { m.next with keyRegister := x, wait := KeyPhase.press.flags }

/-- The machine that has taken a key into the register and nowhere else. -/
def takeKey (m : Machine) (x : Reg) (key : Key) : Machine :=
  { (m.awaitKey x).put x key.val with awaitedKey := key }

/-- The machine in a phase of the wait that `m` began. -/
def atPhase (m : Machine) (x : Reg) : KeyPhase → Machine
  | .press => m.awaitKey x
  | .release key => { m.takeKey x key with wait := (KeyPhase.release key).flags }
  | .ended key => { m.takeKey x key with wait := (KeyPhase.ended key).flags }

/-- The machine without what goes on while it waits: the timers, the beep and the keyboard. -/
def still (m : Machine) : Machine :=
  { m with delay := .idle, sound := .idle, beeping := false, keyboard := .released }

/-- What holds of a machine `n` in a phase of the wait that `m` began. -/
structure InPhase (m : Machine) (x : Reg) (phase : KeyPhase) (n : Machine) : Prop where
  /-- It is the machine of the phase, but for what goes on. -/
  still : n.still = (m.atPhase x phase).still
  /-- Ticks do nothing while something is awaited. -/
  waits : phase.isEnded = false → n.tick = (n, none)
  /-- Presses and releases that lead to no other phase do nothing. -/
  ignoresPress : ∀ code, phase.pressed code = phase → n.keyPressed code = n
  ignoresRelease : ∀ code, phase.released code = phase → n.keyReleased code = n
  /-- Behind the wait, a tick executes the word behind the one that began it. -/
  goesOn : phase.isEnded = true → n.tick =
    n.performDecoded (m.wordAt (m.pc.toNat + 2)) (decode (m.wordAt (m.pc.toNat + 2)))

/-! ### What goes on -/

@[simp] theorem wait_still (m : Machine) : m.still.wait = m.wait := rfl

@[simp] theorem memory_still (m : Machine) : m.still.memory = m.memory := rfl

@[simp] theorem pc_still (m : Machine) : m.still.pc = m.pc := rfl

@[simp] theorem awaitedKey_still (m : Machine) : m.still.awaitedKey = m.awaitedKey := rfl

@[simp] theorem reg_still (m : Machine) (x : Reg) : m.still.reg x = m.reg x := rfl

theorem still_pulse (hdelay : m.wait.delay = false) : m.pulse.still = m.still := by
  have hwait : m.pulse.wait = m.wait := by
    rw [wait_pulse, hdelay, Bool.false_and, ← hdelay]
  show { m.still with wait := m.pulse.wait } = m.still
  rw [hwait]
  rfl

theorem still_keyPressed (m : Machine) (code : UInt8) :
    (m.keyPressed code).still = m.still.keyPressed code := by
  unfold keyPressed
  rw [wait_still]
  split
  · rfl
  · rfl

theorem still_keyReleased (m : Machine) (code : UInt8) :
    (m.keyReleased code).still = m.still.keyReleased code := by
  unfold keyReleased
  rw [wait_still, awaitedKey_still]
  split
  · rfl
  · rfl

/-! ### What does nothing -/

theorem keyPressed_of_not_press (hwait : m.wait.keyPress = false) (code : UInt8) :
    m.keyPressed code = m := by
  simp [keyPressed, hwait]

theorem keyReleased_of_not_release (hwait : m.wait.keyRelease = false) (code : UInt8) :
    m.keyReleased code = m := by
  simp [keyReleased, hwait]

theorem keyReleased_of_other_key {code : UInt8} (hkey : Key.ofCode code ≠ m.awaitedKey) :
    m.keyReleased code = m := by
  simp [keyReleased, hkey]

/-! ### Phases -/

theorem wait_atPhase (m : Machine) (x : Reg) (phase : KeyPhase) :
    (m.atPhase x phase).wait = phase.flags := by
  cases phase with
  | press | release key | ended key => rfl

theorem memory_atPhase (m : Machine) (x : Reg) (phase : KeyPhase) :
    (m.atPhase x phase).memory = m.memory := by
  cases phase with
  | press | release key | ended key => rfl

/-- All of the wait is spent behind the instruction that began it. -/
theorem pc_atPhase (m : Machine) (x : Reg) (phase : KeyPhase) :
    (m.atPhase x phase).pc = m.offset m.pc 2 := by
  cases phase with
  | press | release key | ended key => rfl

theorem keyPressed_atPhase (m : Machine) (x : Reg) (phase : KeyPhase) (code : UInt8) :
    (m.atPhase x phase).keyPressed code = m.atPhase x (phase.pressed code) := by
  cases phase with
  | press =>
      show { (m.awaitKey x).setReg x (Key.ofCode code).val.toUInt8 with
        awaitedKey := Key.ofCode code, wait := (KeyPhase.release (Key.ofCode code)).flags } = _
      have hbyte : (Key.ofCode code).val.toUInt8.toNat = (Key.ofCode code).val := by
        have hlt := (Key.ofCode code).isLt
        rw [Nat.toUInt8_eq, UInt8.toNat_ofNat']
        omega
      rw [setReg_eq_put, hbyte]
      rfl
  | release key | ended key => exact keyPressed_of_not_press rfl code

theorem keyReleased_atPhase (m : Machine) (x : Reg) (phase : KeyPhase) (code : UInt8) :
    (m.atPhase x phase).keyReleased code = m.atPhase x (phase.released code) := by
  cases phase with
  | release key =>
      by_cases hkey : Key.ofCode code = key
      · have hended : (KeyPhase.release key).released code = .ended key := if_pos hkey
        rw [hended, keyReleased, if_pos ⟨rfl, hkey⟩]
        rfl
      · have hstays : (KeyPhase.release key).released code = .release key := if_neg hkey
        rw [hstays]
        exact keyReleased_of_other_key hkey
  | press | ended key => exact keyReleased_of_not_release rfl code

/-- A machine in a phase awaits what belongs to it. -/
theorem wait_of_still (hn : n.still = (m.atPhase x phase).still) : n.wait = phase.flags := by
  rw [← wait_still, hn, wait_still, wait_atPhase]

theorem tick_of_still (hn : n.still = (m.atPhase x phase).still) (hended : phase.isEnded = false) :
    n.tick = (n, none) := by
  apply tick_of_awaiting
  rw [wait_of_still hn, ne_eq, KeyPhase.flags_eq_none_iff, hended]
  exact Bool.false_ne_true

/-- **One operation** takes the machine from phase to phase. -/
theorem still_apply (hn : n.still = (m.atPhase x phase).still) (hop : phase.after op = some later) :
    (op.apply n).still = (m.atPhase x later).still := by
  cases op with
  | tick =>
      show n.tick.1.still = _
      unfold KeyPhase.after at hop
      by_cases hended : phase.isEnded = true
      · rw [if_pos hended] at hop
        cases hop
      · rw [if_neg hended] at hop
        cases hop
        rw [tick_of_still hn (Bool.eq_false_iff.mpr hended)]
        exact hn
  | pulse =>
      cases hop
      have hdelay : n.wait.delay = false := by rw [wait_of_still hn, KeyPhase.delay_flags]
      exact (still_pulse hdelay).trans hn
  | keyPressed code =>
      cases hop
      show (n.keyPressed code).still = _
      -- The event does not see what `still` leaves out, so it is that of the phase itself.
      rw [still_keyPressed, hn, ← still_keyPressed, keyPressed_atPhase]
  | keyReleased code =>
      cases hop
      show (n.keyReleased code).still = _
      rw [still_keyReleased, hn, ← still_keyReleased, keyReleased_atPhase]
  | holdKey code | letGoKey code | letGoAll =>
      cases hop
      exact hn
  | _ => cases hop

/-- **A run** of operations does so as well. -/
theorem still_run (hn : n.still = (m.atPhase x phase).still)
    (hops : ops.foldlM KeyPhase.after phase = some later) :
    (n.run ops).still = (m.atPhase x later).still := by
  -- On the operations, for whatever machine and phase the first of them leads to.
  induction ops generalizing n phase with
  | nil =>
      cases hops
      exact hn
  | cons op ops ih =>
      rw [List.foldlM_cons] at hops
      obtain ⟨between, hop, hrest⟩ := Option.bind_eq_some_iff.mp hops
      rw [run_cons]
      exact ih (still_apply hn hop) hrest

/-! ### Events in a phase -/

/-- A press that does not count leaves even what goes on as it was. -/
theorem keyPressed_of_still (hn : n.still = (m.atPhase x phase).still) {code : UInt8}
    (hstays : phase.pressed code = phase) : n.keyPressed code = n := by
  apply keyPressed_of_not_press
  rw [wait_of_still hn]
  cases phase with
  | press => cases hstays
  | release key | ended key => rfl

/-- So does a release that does not count. -/
theorem keyReleased_of_still (hn : n.still = (m.atPhase x phase).still) {code : UInt8}
    (hstays : phase.released code = phase) : n.keyReleased code = n := by
  cases phase with
  | release key =>
      apply keyReleased_of_other_key
      have hawaited : n.awaitedKey = key := by
        rw [← awaitedKey_still, hn]
        rfl
      rw [hawaited]
      intro hkey
      rw [KeyPhase.released, if_pos hkey] at hstays
      cases hstays
  | press | ended key =>
      apply keyReleased_of_not_release
      rw [wait_of_still hn]
      rfl

/-- The machine goes on with the word behind the one that began the wait. -/
theorem tick_of_ended (hc : c.check = .ok c) (h : Sound c n)
    (hn : n.still = (m.atPhase x phase).still) (hended : phase.isEnded = true) :
    n.tick = n.performDecoded (m.wordAt (m.pc.toNat + 2))
      (decode (m.wordAt (m.pc.toNat + 2))) := by
  have hwait : n.wait = .none := by rw [wait_of_still hn, KeyPhase.flags_eq_none_iff, hended]
  have hmemory : n.memory = m.memory := by
    rw [← memory_still, hn, memory_still, memory_atPhase]
  have hpc : n.pc = n.offset m.pc 2 := by
    rw [offset_congr hmemory, ← pc_still, hn, pc_still, pc_atPhase]
  have hword : n.wordAt n.pc.toNat = m.wordAt (m.pc.toNat + 2) := by
    rw [wordAt_offset hc h hpc, wordAt, wordAt, hmemory]
  rw [tick_eq_stepDecoded hc h hwait, stepDecoded, hword]

/-- Everything that holds in a phase follows from what is not left out. -/
theorem inPhase_of_still (hc : c.check = .ok c) (h : Sound c n)
    (hn : n.still = (m.atPhase x phase).still) : m.InPhase x phase n where
  still := hn
  waits := tick_of_still hn
  ignoresPress _ := keyPressed_of_still hn
  ignoresRelease _ := keyReleased_of_still hn
  goesOn := tick_of_ended hc h hn

/-! ### How waits begin -/

/-- No other instruction awaits keys. -/
theorem keys_perform (hwait : m.wait = .none) (hi : ∀ x, i ≠ .ldKey x) :
    (m.perform i).1.wait.keyPress = false ∧ (m.perform i).1.wait.keyRelease = false := by
  have hnone : m.wait.keyPress = false ∧ m.wait.keyRelease = false := by
    rw [hwait]
    exact ⟨rfl, rfl⟩
  cases i with
  | ldKey x => exact absurd rfl (hi x)
  | ldFromDelay x =>
      obtain hread | hread := perform_ldFromDelay_cases m x
      · rw [hread]
        exact ⟨rfl, rfl⟩
      · rw [hread]
        exact hnone
  | ret =>
      obtain ⟨p, s, f, hret⟩ := exists_perform_ret m
      rw [hret]
      exact hnone
  | call t =>
      obtain ⟨p, s, f, hcall⟩ := exists_perform_call m t
      rw [hcall]
      exact hnone
  | _ => exact hnone

/-- Besides that instruction and a press that is awaited, nothing makes a machine await a key. -/
theorem keys_apply (hc : c.check = .ok c) (h : Sound c m)
    (htick : op = .tick → ∀ x, ¬m.Executes (.ldKey x))
    (hpress : ∀ code, op = .keyPressed code → m.wait.keyPress = false) :
    ((op.apply m).wait.keyPress = true → m.wait.keyPress = true) ∧
      ((op.apply m).wait.keyRelease = true → m.wait.keyRelease = true) := by
  cases op with
  | tick =>
      show (m.tick.1.wait.keyPress = true → _) ∧ (m.tick.1.wait.keyRelease = true → _)
      obtain ⟨_, heq⟩ | ⟨_, _, heq⟩ | ⟨i, hi, heq⟩ := tick_cases hc h
      · rw [heq]
        exact ⟨id, id⟩
      · rw [heq]
        exact ⟨id, id⟩
      · have hkey : ∀ x, i ≠ .ldKey x := by
          rintro x rfl
          exact htick rfl x hi
        obtain ⟨hnoPress, hnoRelease⟩ := keys_perform hi.awake hkey
        rw [heq, hnoPress, hnoRelease]
        exact ⟨fun hfalse => absurd hfalse Bool.false_ne_true,
          fun hfalse => absurd hfalse Bool.false_ne_true⟩
  | pulse =>
      show (m.pulse.wait.keyPress = true → _) ∧ (m.pulse.wait.keyRelease = true → _)
      rw [wait_pulse]
      exact ⟨id, id⟩
  | keyPressed code =>
      show ((m.keyPressed code).wait.keyPress = true → _) ∧
        ((m.keyPressed code).wait.keyRelease = true → _)
      rw [keyPressed_of_not_press (hpress code rfl)]
      exact ⟨id, id⟩
  | keyReleased code =>
      show ((m.keyReleased code).wait.keyPress = true → _) ∧
        ((m.keyReleased code).wait.keyRelease = true → _)
      unfold keyReleased
      split
      · exact ⟨id, fun hfalse => absurd hfalse Bool.false_ne_true⟩
      · exact ⟨id, id⟩
  | reset =>
      exact ⟨fun hfalse => absurd hfalse Bool.false_ne_true,
        fun hfalse => absurd hfalse Bool.false_ne_true⟩
  | load a source =>
      unfold Operation.apply
      dsimp only
      split
      · exact ⟨id, id⟩
      · exact ⟨id, id⟩
  | _ => exact ⟨id, id⟩

/-- A wait for a press begins with the instruction that awaits a key. -/
theorem press_awaited_of_apply (hc : c.check = .ok c) (h : Sound c m)
    (hbefore : m.wait.keyPress = false) (hafter : (op.apply m).wait.keyPress = true) :
    op = .tick ∧ ∃ x, m.Executes (.ldKey x) := by
  by_contra hother
  have htick : op = .tick → ∀ x, ¬m.Executes (.ldKey x) := fun hop x hx => hother ⟨hop, x, hx⟩
  have hpress := (keys_apply hc h htick fun _ _ => hbefore).1 hafter
  rw [hbefore] at hpress
  cases hpress

/-- A wait for a release begins with a press that is awaited. -/
theorem release_awaited_of_apply (hc : c.check = .ok c) (h : Sound c m)
    (hbefore : m.wait.keyRelease = false) (hafter : (op.apply m).wait.keyRelease = true) :
    ∃ code, op = .keyPressed code ∧ m.wait.keyPress = true := by
  by_contra hother
  have htick : op = .tick → ∀ x, ¬m.Executes (.ldKey x) := by
    rintro rfl x hx
    change m.tick.1.wait.keyRelease = true at hafter
    rw [tick_of_executes hc h hx] at hafter
    cases hafter
  have hpress : ∀ code, op = .keyPressed code → m.wait.keyPress = false := by
    intro code hop
    exact Bool.eq_false_iff.mpr fun hwait => hother ⟨code, hop, hwait⟩
  have hrelease := (keys_apply hc h htick hpress).2 hafter
  rw [hbefore] at hrelease
  cases hrelease

/-- **Waiting for a key.** From the instruction that awaits a key on, whatever ticks, pulses and
events of keys follow, the machine is in the phase that these lead to. Presses and releases that are
not awaited do nothing. A press is awaited because of such an instruction only, a release because of
such a press. -/
theorem key_wait_of_reachable (hc : c.check = .ok c) (h : Reachable c m) :
    (∀ x, m.Executes (.ldKey x) → ∀ (ops : List Operation) (phase : KeyPhase),
        ops.foldlM KeyPhase.after .press = some phase →
        m.InPhase x phase (m.tick.1.run ops)) ∧
      (m.wait.keyPress = false → ∀ code, m.keyPressed code = m) ∧
      (m.wait.keyRelease = false → ∀ code, m.keyReleased code = m) ∧
      (∀ op : Operation, m.wait.keyPress = false → (op.apply m).wait.keyPress = true →
        op = .tick ∧ ∃ x, m.Executes (.ldKey x)) ∧
      (∀ op : Operation, m.wait.keyRelease = false → (op.apply m).wait.keyRelease = true →
        ∃ code, op = .keyPressed code ∧ m.wait.keyPress = true) := by
  have hsound := sound_of_reachable hc h
  refine ⟨fun x hx ops phase hops => ?_, keyPressed_of_not_press, keyReleased_of_not_release,
    fun _ => press_awaited_of_apply hc hsound, fun _ => release_awaited_of_apply hc hsound⟩
  have hbegins : m.tick.1.still = (m.atPhase x .press).still := by
    rw [tick_of_executes hc hsound hx]
    rfl
  exact inPhase_of_still hc ((hsound.tick hc).run hc ops) (still_run hbegins hops)

/-- The smallest machine in front of the word that awaits a key for `V3`. -/
def awaitingKey : Machine := (Operation.load 5 ⟨[0xF3, 0x0A], none⟩).apply (new .glyphOne)

/-- A release too early, the press of key 7, another key, and the release of key 7. -/
def pressSeven : List Operation :=
  [.tick, .keyReleased 7, .pulse, .keyPressed 0x17, .keyPressed 2, .keyReleased 8, .letGoKey 7,
    .keyReleased 0x27]

theorem key_wait_of_reachable_pressSeven :
    Config.glyphOne.check = .ok .glyphOne ∧ Reachable .glyphOne awaitingKey ∧
      awaitingKey.Executes (.ldKey 3) ∧
      pressSeven.foldlM KeyPhase.after .press = some (.ended 7) ∧
      (awaitingKey.tick.1.run pressSeven).still = (awaitingKey.atPhase 3 (.ended 7)).still ∧
      (awaitingKey.tick.1.run pressSeven).reg 3 = 7 := by
  have hc : Config.glyphOne.check = .ok .glyphOne := rfl
  have hreachable : Reachable .glyphOne awaitingKey := .step .new (.load 5 ⟨[0xF3, 0x0A], none⟩)
  have hexecutes : awaitingKey.Executes (.ldKey 3) := ⟨by decide +kernel, by decide +kernel⟩
  have hphase : pressSeven.foldlM KeyPhase.after .press = some (.ended 7) := by decide +kernel
  obtain ⟨hwait, _⟩ := key_wait_of_reachable hc hreachable
  have hstill := (hwait 3 hexecutes pressSeven _ hphase).still
  refine ⟨hc, hreachable, hexecutes, hphase, hstill, ?_⟩
  rw [← reg_still, hstill]
  decide +kernel

end Machine

end Chip8
