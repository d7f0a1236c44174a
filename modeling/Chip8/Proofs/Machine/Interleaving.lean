import Chip8.Proofs.Machine.Handlers
import Chip8.Proofs.Machine.KeyWait

/-! # Events between instructions

Where an event comes in between instructions that have nothing to do with it cannot be observed.

* **Parts.** `withTimers` gives a machine other timers, `withKeyboard` another keyboard. Only the
  instructions that `usesTimers` and `usesKeys` name look at these parts or change them
  (`perform_withTimers`, `perform_withKeyboard`).
* **Steps.** So pulses, presses and releases commute with the ticks that execute the others
  (`commutes_pulse`, `commutes_keyDown`, `commutes_keyUp`).
* **Runs.** `slipped` is a run of ticks with an event after the first few of them, together with how
  each tick ended. An event that commutes with the ticks behind it may as well come last
  (`slipped_eq`), and `events_unobservable` says so of all three kinds of events. -/

namespace Chip8

open Instruction

namespace Instruction

/-- Whether the instruction reads the delay timer or sets one of the timers. -/
def usesTimers : Instruction → Bool
  | ldFromDelay _ | ldDelay _ | ldSound _ => true
  | _ => false

/-- Whether the instruction looks at the keyboard or awaits a key. -/
def usesKeys : Instruction → Bool
  | skp _ | sknp _ | ldKey _ => true
  | _ => false

end Instruction

namespace Machine

variable {c : Config} {m n : Machine} {i : Instruction} {e : Machine → Machine} {code : UInt8}

/-! ### Parts -/

/-- The machine with other timers and another beep. -/
def withTimers (m : Machine) (delay sound : Timer) (beeping : Bool) : Machine :=
  { m with delay := delay, sound := sound, beeping := beeping }

/-- The machine with another keyboard. -/
def withKeyboard (m : Machine) (keyboard : Keyboard) : Machine := { m with keyboard := keyboard }

/-- A return does the same to the call stack whatever other parts two machines have. -/
theorem perform_ret_congr (hstack : n.stack = m.stack) (hpc : n.pc = m.pc)
    (hmemory : n.memory = m.memory) :
    ∃ p s f, m.perform .ret = ({ m with pc := p, stack := s }, f) ∧
      n.perform .ret = ({ n with pc := p, stack := s }, f) := by
  cases hm : m.stack with
  | nil =>
      refine ⟨m.pc, m.stack, some (.stackUnderflow m.pc), perform_ret_of_empty hm, ?_⟩
      rw [perform_ret_of_empty (hstack.trans hm), ← hpc, ← hstack]
  | cons top rest =>
      refine ⟨(top.toNat % m.memory.size).toUInt16, rest, none, perform_ret_of_cons hm, ?_⟩
      rw [perform_ret_of_cons (hstack.trans hm), ← hmemory]
      rfl

/-- So does a call. -/
theorem perform_call_congr (t : UInt16) (hstack : n.stack = m.stack) (hpc : n.pc = m.pc)
    (hmemory : n.memory = m.memory) :
    ∃ p s f, m.perform (.call t) = ({ m with pc := p, stack := s }, f) ∧
      n.perform (.call t) = ({ n with pc := p, stack := s }, f) := by
  have hsp : n.sp = m.sp := congrArg List.length hstack
  by_cases hfull : m.sp = stackDepth
  · refine ⟨m.pc, m.stack, some (.stackOverflow m.pc), perform_call_of_full hfull, ?_⟩
    rw [perform_call_of_full (hsp.trans hfull), ← hpc, ← hstack]
  · have hnext : n.next.pc = m.next.pc := by
      show ((n.pc.toNat + 2) % n.memory.size).toUInt16 = _
      rw [hpc, hmemory]
      rfl
    refine ⟨(t.toNat % m.memory.size).toUInt16, m.next.pc :: m.stack, none,
      perform_call_of_room hfull, ?_⟩
    rw [perform_call_of_room (hsp ▸ hfull), hnext, hstack, ← hmemory]
    rfl

/-- Instructions that use no timer do the same whatever the timers are. -/
theorem perform_withTimers (hi : i.usesTimers = false) (delay sound : Timer) (beeping : Bool) :
    (m.withTimers delay sound beeping).perform i =
      ((m.perform i).1.withTimers delay sound beeping, (m.perform i).2) := by
  cases i with
  | ldFromDelay x | ldDelay x | ldSound x => cases hi
  | ret =>
      obtain ⟨p, s, f, hm, hn⟩ :=
        perform_ret_congr (m := m) (n := m.withTimers delay sound beeping) rfl rfl rfl
      rw [hm, hn]
      rfl
  | call t =>
      obtain ⟨p, s, f, hm, hn⟩ :=
        perform_call_congr (m := m) (n := m.withTimers delay sound beeping) t rfl rfl rfl
      rw [hm, hn]
      rfl
  | _ => rfl

/-- Instructions that use no key do the same whatever keys are held. -/
theorem perform_withKeyboard (hi : i.usesKeys = false) (keyboard : Keyboard) :
    (m.withKeyboard keyboard).perform i =
      ((m.perform i).1.withKeyboard keyboard, (m.perform i).2) := by
  cases i with
  | skp x | sknp x | ldKey x => cases hi
  | ret =>
      obtain ⟨p, s, f, hm, hn⟩ :=
        perform_ret_congr (m := m) (n := m.withKeyboard keyboard) rfl rfl rfl
      rw [hm, hn]
      rfl
  | call t =>
      obtain ⟨p, s, f, hm, hn⟩ :=
        perform_call_congr (m := m) (n := m.withKeyboard keyboard) t rfl rfl rfl
      rw [hm, hn]
      rfl
  | ldFromDelay x =>
      -- Whether the machine parks depends on memory and timer, which both machines share.
      by_cases hparks : m.delay.value ≠ 0 ∧ m.loopsOn x
      · have hparks' : (m.withKeyboard keyboard).delay.value ≠ 0 ∧
            (m.withKeyboard keyboard).loopsOn x := hparks
        rw [perform_ldFromDelay_of_loop hparks, perform_ldFromDelay_of_loop hparks']
        rfl
      · have hgoes : ¬((m.withKeyboard keyboard).delay.value ≠ 0 ∧
            (m.withKeyboard keyboard).loopsOn x) := hparks
        rw [perform_ldFromDelay_of_not_loop hparks, perform_ldFromDelay_of_not_loop hgoes]
        rfl
  | _ => rfl

/-! ### Steps -/

/-- The event may come in front of the next tick or behind it: the tick ends alike, and the machine
behind both is the same. -/
def Commutes (e : Machine → Machine) (m : Machine) : Prop := (e m).tick = (e m.tick.1, m.tick.2)

/-- An event that leaves alone what a tick begins with commutes with the tick if it commutes with
the instruction that the tick executes. -/
theorem commutes_of_perform (hc : c.check = .ok c) (h : Sound c m) (he : Sound c (e m))
    (hwait : (e m).wait = m.wait) (hpc : (e m).pc = m.pc) (hmemory : (e m).memory = m.memory)
    (hperform : ∀ i, m.Executes i → (e m).perform i = (e (m.perform i).1, (m.perform i).2)) :
    m.Commutes e := by
  have hword : (e m).wordAt (e m).pc.toNat = m.wordAt m.pc.toNat := by
    rw [wordAt, wordAt, hpc, hmemory]
  unfold Commutes
  rcases tick_cases hc h with ⟨hwaits, htick⟩ | ⟨hawake, hdecode, htick⟩ | ⟨i, hi, htick⟩
  · rw [htick, tick_of_awaiting (hwait ▸ hwaits)]
  · have hstep := tick_eq_stepDecoded hc he (hwait.trans hawake)
    rw [htick, hstep, stepDecoded, hword, hdecode, ← hpc]
    rfl
  · have hexecutes : (e m).Executes i := ⟨hwait.trans hi.awake, hword ▸ hi.word⟩
    rw [htick, tick_of_executes hc he hexecutes, hperform i hi]

/-- As long as the delay timer is not awaited, a pulse only gives the machine other timers. -/
theorem pulse_eq_withTimers (hdelay : m.wait.delay = false) :
    m.pulse = m.withTimers m.delay.pulse.1 m.sound.pulse.1
      (if m.sound.pulse.2 then false else m.beeping) := by
  have hwait : m.pulse.wait = m.wait := by
    rw [wait_pulse, hdelay, Bool.false_and, ← hdelay]
  calc m.pulse
    _ = { m.withTimers m.delay.pulse.1 m.sound.pulse.1
          (if m.sound.pulse.2 then false else m.beeping) with wait := m.pulse.wait } := rfl
    _ = _ := by
      rw [hwait]
      rfl

/-- What an instruction that uses no timer leaves of the timers: everything. -/
theorem withTimers_perform (hi : i.usesTimers = false) :
    (m.perform i).1 = (m.perform i).1.withTimers m.delay m.sound m.beeping :=
  congrArg Prod.fst (perform_withTimers hi m.delay m.sound m.beeping)

/-- Nothing that the next tick does has to do with the timers: it does nothing because a key is
awaited, or the instruction that it executes uses no timer. -/
def SparesTimers (m : Machine) : Prop :=
  m.wait.delay = false ∧ (m.wait.keyPress = true ∨ m.wait.keyRelease = true ∨
    ∀ i ∈ decode m.nextWord, i.usesTimers = false)

/-- Nothing that the next tick does has to do with the keys. -/
def SparesKeys (m : Machine) : Prop :=
  m.wait = .none ∧ ∀ i ∈ decode m.nextWord, i.usesKeys = false

instance (m : Machine) : Decidable m.SparesTimers :=
  inferInstanceAs (Decidable (_ ∧ (_ ∨ _ ∨ ∀ i ∈ decode m.nextWord, i.usesTimers = false)))

instance (m : Machine) : Decidable m.SparesKeys :=
  inferInstanceAs (Decidable (_ ∧ ∀ i ∈ decode m.nextWord, i.usesKeys = false))

theorem decode_nextWord_of_executes (hi : m.Executes i) : decode m.nextWord = some i := by
  rw [nextWord, word_eq_wordAt]
  exact hi.word

/-- **A pulse** commutes with ticks that spare the timers. -/
theorem commutes_pulse (hc : c.check = .ok c) (h : Sound c m) (hspares : m.SparesTimers) :
    m.Commutes pulse := by
  obtain ⟨hdelay, hinstruction⟩ := hspares
  refine commutes_of_perform hc h h.pulse ?_ rfl rfl fun i hi => ?_
  · rw [pulse_eq_withTimers hdelay]
    rfl
  · have huses : i.usesTimers = false := by
      rcases hinstruction with hpress | hrelease | hinstruction
      · rw [hi.awake] at hpress
        cases hpress
      · rw [hi.awake] at hrelease
        cases hrelease
      · exact hinstruction i (decode_nextWord_of_executes hi)
    have hbehind : (m.perform i).1.wait.delay = false := by
      refine delay_wait_perform (fun x hx => ?_) hdelay
      rw [hx] at huses
      cases huses
    have hkeeps := withTimers_perform (m := m) huses
    rw [pulse_eq_withTimers hdelay, perform_withTimers huses, pulse_eq_withTimers hbehind, hkeeps]
    rfl

/-- An instruction that uses no key leaves the keyboard as it is. -/
theorem keyboard_perform (hi : i.usesKeys = false) : (m.perform i).1.keyboard = m.keyboard := by
  have hsame : m.perform i = ((m.perform i).1.withKeyboard m.keyboard, (m.perform i).2) :=
    perform_withKeyboard hi m.keyboard
  rw [hsame]
  rfl

/-- An event that only gives the machine another keyboard commutes with ticks that spare the
keys. -/
theorem commutes_withKeyboard (hc : c.check = .ok c) (h : Sound c m) (hspares : m.SparesKeys)
    (change : Keyboard → Keyboard)
    (he : ∀ n : Machine, n.wait.keyPress = false → n.wait.keyRelease = false →
      e n = n.withKeyboard (change n.keyboard)) :
    m.Commutes e := by
  obtain ⟨hnone, hinstruction⟩ := hspares
  have hhere : e m = m.withKeyboard (change m.keyboard) := by
    apply he
    · rw [hnone]
      rfl
    · rw [hnone]
      rfl
  apply commutes_of_perform hc h
  · rw [hhere]
    exact { h with }
  · rw [hhere]
    rfl
  · rw [hhere]
    rfl
  · rw [hhere]
    rfl
  · intro i hi
    have huses : i.usesKeys = false := hinstruction i (decode_nextWord_of_executes hi)
    have hother : ∀ x, i ≠ .ldKey x := by
      intro x hx
      rw [hx] at huses
      cases huses
    obtain ⟨hpress, hrelease⟩ := keys_perform hnone hother
    rw [hhere, perform_withKeyboard huses, he _ hpress hrelease, keyboard_perform huses]

/-- **A press** commutes with ticks that spare the keys. -/
theorem commutes_keyDown (hc : c.check = .ok c) (h : Sound c m) (hspares : m.SparesKeys)
    (code : UInt8) : m.Commutes (·.keyDown code) := by
  apply commutes_withKeyboard hc h hspares (·.press code)
  intro n hpress _
  exact keyPressed_of_not_press (m := n.holdKey code) hpress code

/-- **A release** does as well. -/
theorem commutes_keyUp (hc : c.check = .ok c) (h : Sound c m) (hspares : m.SparesKeys)
    (code : UInt8) : m.Commutes (·.keyUp code) := by
  apply commutes_withKeyboard hc h hspares (·.release code)
  intro n _ hrelease
  exact keyReleased_of_not_release (m := n.letGoKey code) hrelease code

/-! ### Runs -/

/-- How each of the next ticks ends. -/
def faults (m : Machine) (k : Nat) : List (Option Fault) :=
  (List.range k).map fun j => (m.ticked j).tick.2

/-- The machine behind `k` ticks, an event and `n` ticks, together with how each of the ticks
ended. -/
def slipped (e : Machine → Machine) (m : Machine) (k n : Nat) : List (Option Fault) × Machine :=
  (m.faults k ++ (e (m.ticked k)).faults n, (e (m.ticked k)).ticked n)

theorem ticked_tick (m : Machine) (k : Nat) : m.tick.1.ticked k = m.ticked (k + 1) :=
  (Function.iterate_succ_apply _ _ _).symm

theorem faults_succ (m : Machine) (k : Nat) :
    m.faults (k + 1) = m.faults k ++ [(m.ticked k).tick.2] := by
  simp only [faults, List.range_succ, List.map_append, List.map_cons, List.map_nil]

theorem faults_tick (m : Machine) (k : Nat) : m.faults (k + 1) = m.tick.2 :: m.tick.1.faults k := by
  simp only [faults, List.range_succ_eq_map, List.map_cons, List.map_map]
  rfl

/-- An event that commutes with the tick behind it may as well come one tick later. -/
theorem slipped_succ {k : Nat} (he : (m.ticked k).Commutes e) (n : Nat) :
    m.slipped e k (n + 1) = m.slipped e (k + 1) n := by
  have hfault : (e (m.ticked k)).tick.2 = (m.ticked k).tick.2 := by
    rw [he]
  have hnext : (e (m.ticked k)).tick.1 = e (m.ticked (k + 1)) := by
    rw [he, ticked_succ]
  unfold slipped
  rw [faults_tick, ← ticked_tick, hnext, hfault, faults_succ, List.append_assoc,
    List.singleton_append]

/-- An event that commutes with all ticks behind it may as well come last. -/
theorem slipped_eq {k n : Nat} (he : ∀ j < n, (m.ticked (k + j)).Commutes e) :
    m.slipped e k n = m.slipped e (k + n) 0 := by
  induction n generalizing k with
  | zero => rfl
  | succ n ih =>
      have hfirst : (m.ticked k).Commutes e := he 0 (by omega)
      have hothers : ∀ j < n, (m.ticked (k + 1 + j)).Commutes e := by
        intro j hj
        have hlater := he (1 + j) (by omega)
        rwa [← Nat.add_assoc] at hlater
      calc m.slipped e k (n + 1)
        _ = m.slipped e (k + 1) n := slipped_succ hfirst n
        _ = m.slipped e (k + 1 + n) 0 := ih hothers
        _ = m.slipped e (k + (n + 1)) 0 := by rw [Nat.add_assoc, Nat.add_comm 1 n]

/-- **Events between instructions.** A pulse gives the same machine and the same outcome in front of
a tick and behind it, unless a pulse is awaited or the tick executes an instruction that uses a
timer. Keys that are pressed or let go do, unless something is awaited or the tick executes an
instruction that looks at the keys. So where the event comes in between ticks of these kinds makes
no difference to the machine behind them or to how any of them ended. -/
theorem events_unobservable (hc : c.check = .ok c) (h : Reachable c m) :
    (m.SparesTimers → m.Commutes pulse) ∧
      (m.SparesKeys → ∀ code, m.Commutes (·.keyDown code) ∧ m.Commutes (·.keyUp code)) ∧
      (∀ k n, (∀ j < n, (m.ticked (k + j)).SparesTimers) →
        m.slipped pulse k n = m.slipped pulse (k + n) 0) ∧
      (∀ k n, (∀ j < n, (m.ticked (k + j)).SparesKeys) → ∀ code,
        m.slipped (·.keyDown code) k n = m.slipped (·.keyDown code) (k + n) 0 ∧
          m.slipped (·.keyUp code) k n = m.slipped (·.keyUp code) (k + n) 0) := by
  have hsound : ∀ k, Sound c (m.ticked k) := fun k =>
    sound_of_reachable hc (reachable_iterate_tick h k)
  refine ⟨?_, ?_, ?_, ?_⟩
  · intro hspares
    exact commutes_pulse hc (hsound 0) hspares
  · intro hspares code
    exact ⟨commutes_keyDown hc (hsound 0) hspares code, commutes_keyUp hc (hsound 0) hspares code⟩
  · intro k n hspares
    apply slipped_eq
    intro j hj
    exact commutes_pulse hc (hsound _) (hspares j hj)
  · intro k n hspares code
    constructor
    · apply slipped_eq
      intro j hj
      exact commutes_keyDown hc (hsound _) (hspares j hj) code
    · apply slipped_eq
      intro j hj
      exact commutes_keyUp hc (hsound _) (hspares j hj) code

/-- The smallest machine in front of a load and of a return with nowhere to go, with a delay
running. -/
def returning : Machine :=
  (Operation.setDelay 2).apply
    ((Operation.load 5 ⟨[0x6A, 0x05, 0x00, 0xEE], none⟩).apply (new .glyphOne))

theorem events_unobservable_returning :
    Config.glyphOne.check = .ok .glyphOne ∧ Reachable .glyphOne returning ∧
      returning.SparesTimers ∧ returning.SparesKeys ∧
      returning.slipped pulse 2 0 = ([none, some (.stackUnderflow 7)], (returning.pulse.ticked 2)) ∧
      returning.slipped (·.keyDown 3) 0 2 = returning.slipped (·.keyDown 3) 2 0 := by
  have hc : Config.glyphOne.check = .ok .glyphOne := rfl
  have hreachable : Reachable .glyphOne returning := .step (.step .new _) _
  obtain ⟨_, _, hpulse, hkeys⟩ := events_unobservable hc hreachable
  have htimers : ∀ j < 2, (returning.ticked (0 + j)).SparesTimers := by decide +kernel
  have hspares : ∀ j < 2, (returning.ticked (0 + j)).SparesKeys := by decide +kernel
  have hfaults : returning.pulse.faults 2 = [none, some (.stackUnderflow 7)] := by decide +kernel
  refine ⟨hc, hreachable, htimers 0 (by decide), hspares 0 (by decide), ?_,
    (hkeys 0 2 hspares 3).1⟩
  rw [← hfaults]
  exact (hpulse 0 2 htimers).symm

end Machine

end Chip8
