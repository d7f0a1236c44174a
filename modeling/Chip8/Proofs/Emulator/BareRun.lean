import Chip8.Proofs.Emulator.Pausing

/-! # Runs of a bare machine

An emulator that is left alone does to its machine what a plain repetition of ticks does.

* **The loop** up to the end of the emulator is a repetition of rounds (`runUntil_succ`).
* **Driving.** `Drives` is the invariant of a run that nobody disturbs: the emulator's machine is the
  bare machine, apart from whether the picture was taken. One round is one tick (`Drives.success`),
  or the last one of the run (`Drives.fault`, `Drives.pause`, `Drives.rests`).
* **Runs.** A run ends with the first tick that faults, leaves something to wait for or leads to an
  enabled breakpoint, in this order of precedence, and goes on for ever if there is none
  (`run_eq_bare_ticks`). -/

namespace Chip8

/-- The tick behind `i` others ends an undisturbed run: it faults, or something is awaited behind it,
or it leads to an enabled breakpoint. -/
def Machine.EndsAt (bs : Breakpoints) (m : Machine) (i : Nat) : Prop :=
  (m.ticked i).tick.2 ≠ none ∨ (m.ticked (i + 1)).wait ≠ .none ∨ bs.Stops (m.ticked (i + 1)).pc

namespace Queue

/-- A queue that awaits something hands nothing out if there are no pulses. -/
theorem Calm.poll_of_waiting {q : Queue} {now : Nat} (h : q.Calm now) (hperiod : q.period = none)
    (hwait : q.wait ≠ .none) : q.poll now = (.blocked, q, now) := by
  have hawaits : ¬ q.wait.isEmpty = true := fun hempty => hwait (WaitFlags.isEmpty_iff.mp hempty)
  unfold Queue.poll
  rw [h.pending, hperiod]
  simp [h.connected, hawaits]

end Queue

namespace Emulator

variable {e : Emulator} {o : Emulated} {bs : Breakpoints} {m : Machine} {c : Command}
  {cs : List Command} {f : Fault} {i n : Nat}

/-! ### The loop -/

theorem runFrom_of_rest (h : e.next? = none) (events : List Event) (n : Nat) :
    runFrom Emulator.finished events n e = (e, events.reverse) := by
  unfold next? at h
  cases n with
  | zero => rfl
  | succ n =>
      unfold runFrom
      split at h
      · rename_i hfin
        rw [if_pos hfin]
      · rename_i hlive
        rw [if_neg hlive, h]

theorem runFrom_of_next (h : e.next? = some o) (events : List Event) (n : Nat) :
    runFrom Emulator.finished events (n + 1) e =
      runFrom Emulator.finished (o.2.reverse ++ events) n o.1 := by
  unfold next? at h
  split at h
  · cases h
  · rename_i hlive
    rw [runFrom, if_neg hlive, h]

theorem runFrom_succ (events : List Event) (n : Nat) (e : Emulator) :
    runFrom Emulator.finished events (n + 1) e =
      (runFrom Emulator.finished events n e).andThen round := by
  -- the loop makes its first round first, so the events so far and the emulator vary
  induction n generalizing events e with
  | zero =>
      show _ = (e.round.1, events.reverse ++ e.round.2)
      unfold round
      cases hnext : e.next? with
      | none =>
          rw [runFrom_of_rest hnext, Option.getD_none, List.append_nil]
      | some o =>
          rw [runFrom_of_next hnext, Option.getD_some]
          simp [runFrom]
  | succ n ih =>
      cases hnext : e.next? with
      | none =>
          rw [runFrom_of_rest hnext, runFrom_of_rest hnext]
          simp [Emulated.andThen, round, hnext]
      | some o => rw [runFrom_of_next hnext, runFrom_of_next hnext, ih]

/-- Up to the end of an emulator the loop makes one round more, if there is one. -/
theorem runUntil_succ (n : Nat) (e : Emulator) :
    e.runUntil Emulator.finished (n + 1) = (e.runUntil Emulator.finished n).andThen round :=
  runFrom_succ [] n e

/-- The loop comes to rest with this outcome: the emulator has not ended, there is nothing that it can
do, and more rounds change nothing. -/
def ComesToRest (e : Emulator) (o : Emulated) : Prop :=
  o.1.finished = false ∧ o.1.turn? = none ∧
    ∃ n, ∀ more, e.runUntil Emulator.finished (n + more) = o

theorem comesToRest_of_rest (hlive : (e.runUntil Emulator.finished n).1.finished = false)
    (hrest : (e.runUntil Emulator.finished n).1.deed? = none) :
    e.ComesToRest (e.runUntil Emulator.finished n) := by
  refine ⟨hlive, ?_, n, ?_⟩
  · rw [turn?_of_live hlive, hrest]
    rfl
  · intro more
    induction more with
    | zero => rfl
    | succ more ih =>
        rw [← Nat.add_assoc, runUntil_succ, ih]
        simp [Emulated.andThen, round_of_rest hrest]

/-! ### Being left alone -/

/-- Nothing is left to obey, and the callers are there. -/
structure Quiet (e : Emulator) : Prop where
  live : e.finished = false
  pending : e.queue.pending = []
  connected : e.queue.connected = true

theorem quiet_of_unmarked {e' : Emulator} (h : e.unmarked = e'.unmarked) (hquiet : e'.Quiet) :
    e.Quiet := by
  have hqueue := queue_of_unmarked h
  refine ⟨(finished_of_unmarked h).trans hquiet.live, ?_, ?_⟩
  · rw [hqueue]
    exact hquiet.pending
  · rw [hqueue]
    exact hquiet.connected

/-- An emulator that does not run waits for commands. -/
theorem Quiet.rests (h : e.Quiet) (hrun : e.run ≠ .running) : e.deed? = none := by
  have hpolled : e.polled.1 = .blocked := by
    rw [polled_of_not_running hrun]
    unfold Queue.take
    rw [h.pending]
    simp [h.connected]
  unfold deed?
  simp [h.live, hpolled]

/-- The emulator is stopped and these commands wait to be obeyed. -/
structure Queued (e : Emulator) (cs : List Command) : Prop where
  live : e.finished = false
  run : e.run = .stopped
  connected : e.queue.connected = true
  pending : e.queue.pending = cs

/-- A stopped emulator obeys the first command next. -/
theorem Queued.deed?_eq (h : e.Queued (c :: cs)) (hc : c.isTerminate = false) :
    e.deed? = some (.obey c) ∧
      ∃ next, e.ready = { e with queue := { e.queue with pending := cs, nextPulse := next } } := by
  have hpolled := polled_of_not_running (e := e) (by simp [h.run])
  rw [Queue.take_of_pending h.pending] at hpolled
  obtain ⟨next, hrestart⟩ := Queue.restartPulses_eq { e.queue with pending := cs } e.clock
  rw [hrestart] at hpolled
  refine ⟨?_, next, ?_⟩
  · rw [deed?_of_pending h.live h.pending, hc]
    rfl
  · unfold ready
    rw [hpolled]

theorem Queued.quiet (h : e.Queued []) : e.Quiet := ⟨h.live, h.pending, h.connected⟩

/-! ### Driving -/

/-- The emulator is running the bare machine `m`, with these breakpoints, and is left alone. -/
structure Drives (e : Emulator) (bs : Breakpoints) (m : Machine) : Prop extends e.Quiet where
  run : e.run = .running
  period : e.queue.period = none
  wait : e.queue.wait = e.machine.wait
  breakpoints : e.breakpoints = bs
  machine : e.machine.unmarked = m.unmarked

namespace Drives

theorem wait_eq (h : e.Drives bs m) : e.machine.wait = m.wait := by
  rw [← Machine.wait_unmarked, h.machine, Machine.wait_unmarked]

theorem pc_eq (h : e.Drives bs m) : e.machine.pc = m.pc := by
  rw [← Machine.pc_unmarked, h.machine, Machine.pc_unmarked]

theorem fault_eq (h : e.Drives bs m) : e.machine.tick.2 = m.tick.2 := (Machine.tick_congr h.machine).2

theorem calm (h : e.Drives bs m) : e.queue.Calm e.clock :=
  Queue.calm_of_no_period h.pending h.connected h.period

/-- It rests while the machine awaits something. -/
theorem rests (h : e.Drives bs m) (hwait : m.wait ≠ .none) : e.deed? = none := by
  have hawaits : e.queue.wait ≠ .none := by rwa [h.wait, h.wait_eq]
  have hpolled : e.polled.1 = .blocked := by
    rw [polled_of_running h.run, h.calm.poll_of_waiting h.period hawaits]
  unfold deed?
  simp [h.live, hpolled]

theorem cycles (h : e.Drives bs m) (hwait : m.wait = .none) : e.Cycles :=
  cycles_iff.mpr ⟨h.live, h.run, h.calm, h.wait.trans (h.wait_eq.trans hwait)⟩

/-- It executes if the machine awaits nothing and no breakpoint stops it. -/
theorem executes (h : e.Drives bs m) (hwait : m.wait = .none)
    (hpass : e.skipBreakpoint = true ∨ ¬ bs.Stops m.pc) : e.deed? = some .execute := by
  rw [← h.breakpoints, ← h.pc_eq] at hpass
  exact execute_iff.mpr ⟨h.cycles hwait, hit?_eq_none_iff.mpr hpass⟩

/-- A tick that succeeds is followed. -/
theorem success (h : e.Drives bs m) (hdeed : e.deed? = some .execute) (hdone : m.tick.2 = none) :
    e.round.1.Drives bs m.tick.1 ∧ e.round.1.skipBreakpoint = false ∧ changes e.round.2 = [] := by
  have htick : e.machine.tick.2 = none := h.fault_eq.trans hdone
  have hsame := unmarked_round_of_success hdeed htick
  have hqueue : e.round.1.queue = e.queue.setWait e.machine.tick.1.wait := queue_of_unmarked hsame
  refine ⟨⟨quiet_of_unmarked hsame ⟨h.live, h.pending, h.connected⟩, ?_, ?_, ?_, ?_, ?_⟩,
    skip_of_unmarked hsame, changes_round_of_success hdeed htick⟩
  · exact (run_of_unmarked hsame).trans h.run
  · rw [hqueue]
    exact h.period
  · rw [hqueue]
    exact (wait_of_unmarked hsame).symm
  · exact (breakpoints_of_unmarked hsame).trans h.breakpoints
  · exact (machine_of_unmarked hsame).trans (Machine.tick_congr h.machine).1

/-- A tick that faults is the last one. -/
theorem fault (h : e.Drives bs m) (hdeed : e.deed? = some .execute) (hfault : m.tick.2 = some f) :
    e.round.1.Quiet ∧ e.round.1.run = .stopped ∧ e.round.1.machine.unmarked = m.tick.1.unmarked ∧
      changes e.round.2 = [⟨.stopped, .stopped, m.tick.1.pc, some f⟩] := by
  have htick : e.machine.tick.2 = some f := h.fault_eq.trans hfault
  have hsame := unmarked_round_of_fault hdeed htick
  have hlast : m.tick.1 = m := congrArg Prod.fst (Machine.tick_eq_of_fault hfault)
  rw [hlast, ← h.pc_eq, changes_round_of_fault hdeed htick]
  exact ⟨quiet_of_unmarked hsame ⟨h.live, h.pending, h.connected⟩, run_of_unmarked hsame,
    (machine_of_unmarked hsame).trans h.machine, rfl⟩

/-- At a breakpoint the machine stays as it is. -/
theorem pause (h : e.Drives bs m) (hwait : m.wait = .none) (hskip : e.skipBreakpoint = false)
    (hstops : bs.Stops m.pc) :
    e.round.1.Quiet ∧ e.round.1.run = .stopped ∧ e.round.1.machine.unmarked = m.unmarked ∧
      changes e.round.2 = [⟨.stopped, .stoppedBreakpoint, m.pc, none⟩] := by
  have hhit : e.hit? ≠ none := by
    rw [ne_eq, hit?_eq_none_iff, h.breakpoints, h.pc_eq, hskip]
    simp [hstops]
  obtain ⟨b, hdeed⟩ := exists_pause_iff.mpr ⟨h.cycles hwait, hhit⟩
  have hsame := unmarked_round_of_pause hdeed
  rw [← h.pc_eq, changes_round_of_pause hdeed]
  exact ⟨quiet_of_unmarked hsame ⟨h.live, h.pending, h.connected⟩, run_of_unmarked hsame,
    (machine_of_unmarked hsame).trans h.machine, rfl⟩

end Drives

/-- A start, with nothing else to obey, drives the machine from where it is. -/
theorem drives_of_start (h : e.Queued [.start]) (hperiod : e.queue.period = none) :
    e.round.1.Drives e.breakpoints e.machine ∧ e.round.1.skipBreakpoint = true ∧
      changes e.round.2 = [⟨.running, .started, e.machine.pc, none⟩] := by
  have hstopped : e.run ≠ .running := by simp [h.run]
  obtain ⟨hdeed, next, hready⟩ := h.deed?_eq rfl
  have hsame := unmarked_round_of_obey hdeed
  have hobeyed : e.ready.obeyed .start =
      { e.ready with run := .running, skipBreakpoint := true }.syncWait := by
    rw [hready]
    exact if_neg hstopped
  rw [hobeyed, hready] at hsame
  have hqueue := queue_of_unmarked hsame
  refine ⟨⟨quiet_of_unmarked hsame ⟨h.live, rfl, h.connected⟩, run_of_unmarked hsame, ?_, ?_,
    (breakpoints_of_unmarked hsame).trans rfl, (machine_of_unmarked hsame).trans rfl⟩,
    skip_of_unmarked hsame, ?_⟩
  · rw [hqueue]
    exact hperiod
  · rw [hqueue]
    exact (wait_of_unmarked hsame).symm
  · rw [changes_round_of_obey hdeed]
    exact if_neg hstopped

/-! ### Runs -/

/-- As long as no tick ends the run, the machine awaits nothing, and behind the first tick no breakpoint
stops it. -/
theorem goes_on (hwait : m.wait = .none) (hgoes : ∀ j < i, ¬ m.EndsAt bs j) :
    (m.ticked i).wait = .none ∧ (i = 0 ∨ ¬ bs.Stops (m.ticked i).pc) := by
  cases i with
  | zero => exact ⟨hwait, .inl rfl⟩
  | succ i =>
      obtain ⟨-, hlater⟩ := not_or.mp (hgoes i (Nat.lt_succ_self i))
      obtain ⟨hawaits, hstops⟩ := not_or.mp hlater
      exact ⟨not_not.mp hawaits, .inr hstops⟩

/-- What an emulator is like that obeyed a start and then made a round for each of `i` ticks. -/
structure Drove (o : Emulated) (bs : Breakpoints) (m : Machine) (i : Nat) : Prop where
  drives : o.1.Drives bs (m.ticked i)
  skip : o.1.skipBreakpoint = decide (i = 0)
  told : changes o.2 = [⟨.running, .started, m.pc, none⟩]

theorem Drove.executes (h : Drove o bs m i)
    (hon : (m.ticked i).wait = .none ∧ (i = 0 ∨ ¬ bs.Stops (m.ticked i).pc)) :
    o.1.deed? = some .execute := by
  refine h.drives.executes hon.1 ?_
  rw [h.skip, decide_eq_true_eq]
  exact hon.2

theorem Drove.next (h : Drove o bs m i)
    (hon : (m.ticked i).wait = .none ∧ (i = 0 ∨ ¬ bs.Stops (m.ticked i).pc))
    (hdone : (m.ticked i).tick.2 = none) : Drove (o.andThen round) bs m (i + 1) := by
  obtain ⟨hdrives, hskip, hchanges⟩ := h.drives.success (h.executes hon) hdone
  refine ⟨?_, hskip, ?_⟩
  · rw [Machine.ticked_succ]
    exact hdrives
  · rw [Emulated.snd_andThen, changes_append, h.told, hchanges]
    rfl

/-- **A run goes on** as long as no tick ends it, one round a tick. -/
theorem drove_runUntil (hstart : Drove (e.runUntil Emulator.finished 1) bs m 0)
    (hwait : m.wait = .none) (hgoes : ∀ j < i, ¬ m.EndsAt bs j) :
    Drove (e.runUntil Emulator.finished (i + 1)) bs m i := by
  induction i with
  | zero => exact hstart
  | succ i ih =>
      have hbefore : ∀ j < i, ¬ m.EndsAt bs j := fun j hj => hgoes j (Nat.lt_succ_of_lt hj)
      have hdone : (m.ticked i).tick.2 = none :=
        not_not.mp (not_or.mp (hgoes i (Nat.lt_succ_self i))).1
      rw [runUntil_succ]
      exact (ih hbefore).next (goes_on hwait hbefore) hdone

/-! ### Ends of runs -/

/-- A round that stops the emulator is the last one of its run. -/
theorem Drove.rests_of_stopped {m' : Machine} {change : StateChange}
    (h : Drove (e.runUntil Emulator.finished n) bs m i)
    (hlast : (e.runUntil Emulator.finished n).1.round.1.Quiet ∧
      (e.runUntil Emulator.finished n).1.round.1.run = .stopped ∧
      (e.runUntil Emulator.finished n).1.round.1.machine.unmarked = m'.unmarked ∧
      changes (e.runUntil Emulator.finished n).1.round.2 = [change]) :
    ∃ o, e.ComesToRest o ∧ o.1.machine.unmarked = m'.unmarked ∧ o.1.run = .stopped ∧
      changes o.2 = [⟨.running, .started, m.pc, none⟩, change] := by
  obtain ⟨hquiet, hrun, hmachine, hchanges⟩ := hlast
  have hround := runUntil_succ n e
  have hrest : e.ComesToRest (e.runUntil Emulator.finished (n + 1)) := by
    refine comesToRest_of_rest ?_ ?_
    · rw [hround]
      exact hquiet.live
    · rw [hround]
      exact hquiet.rests (by simp [hrun])
  rw [hround] at hrest
  refine ⟨_, hrest, hmachine, hrun, ?_⟩
  rw [Emulated.snd_andThen, changes_append, h.told, hchanges]
  rfl

/-- The outcome of a run that ends with the tick behind `i` others. -/
def EndsRun (m : Machine) (i : Nat) (o : Emulated) : Prop :=
  o.1.machine.unmarked = (m.ticked (i + 1)).unmarked ∧
    match (m.ticked i).tick.2 with
    | some f =>
        o.1.run = .stopped ∧
          changes o.2 = [⟨.running, .started, m.pc, none⟩,
            ⟨.stopped, .stopped, (m.ticked (i + 1)).pc, some f⟩]
    | none =>
        if (m.ticked (i + 1)).wait = .none then
          o.1.run = .stopped ∧
            changes o.2 = [⟨.running, .started, m.pc, none⟩,
              ⟨.stopped, .stoppedBreakpoint, (m.ticked (i + 1)).pc, none⟩]
        else o.1.run = .running ∧ changes o.2 = [⟨.running, .started, m.pc, none⟩]

theorem EndsRun.of_fault (h : EndsRun m i o) (hfault : (m.ticked i).tick.2 = some f) :
    o.1.run = .stopped ∧ changes o.2 = [⟨.running, .started, m.pc, none⟩,
      ⟨.stopped, .stopped, (m.ticked (i + 1)).pc, some f⟩] := by
  unfold EndsRun at h
  rw [hfault] at h
  exact h.2

/-- **A run ends** with the first tick that ends it. -/
theorem Drove.exists_end (h : Drove (e.runUntil Emulator.finished n) bs m i)
    (hon : (m.ticked i).wait = .none ∧ (i = 0 ∨ ¬ bs.Stops (m.ticked i).pc))
    (hends : m.EndsAt bs i) : ∃ o, e.ComesToRest o ∧ EndsRun m i o := by
  unfold EndsRun
  -- a fault shows in the round of its tick, what ends the run behind a tick only in the next one
  cases hfault : (m.ticked i).tick.2 with
  | some f =>
      have hlast := h.drives.fault (h.executes hon) hfault
      rw [← Machine.ticked_succ] at hlast
      exact h.rests_of_stopped hlast
  | none =>
      have hnext := h.next hon hfault
      rw [← runUntil_succ] at hnext
      by_cases hwait : (m.ticked (i + 1)).wait = .none
      · have hstops : bs.Stops (m.ticked (i + 1)).pc := by
          rcases hends with habsurd | habsurd | hstops
          · exact absurd hfault habsurd
          · exact absurd hwait habsurd
          · exact hstops
        simp only [if_pos hwait]
        exact hnext.rests_of_stopped (hnext.drives.pause hwait hnext.skip hstops)
      · simp only [if_neg hwait]
        exact ⟨_, comesToRest_of_rest hnext.drives.live (hnext.drives.rests hwait),
          hnext.drives.machine, hnext.drives.run, hnext.told⟩

/-! ### Steps -/

/-- A step is a tick, and tells that the emulator stopped. -/
theorem Queued.step (h : e.Queued (.step :: cs)) (hmachine : e.machine.unmarked = m.unmarked) :
    e.round.1.Queued cs ∧ e.round.1.machine.unmarked = m.tick.1.unmarked ∧
      changes e.round.2 = [⟨.stopped, .stopped, m.tick.1.pc, m.tick.2⟩] := by
  obtain ⟨hdeed, next, hready⟩ := h.deed?_eq rfl
  obtain ⟨htick, hfault⟩ := Machine.tick_congr hmachine
  have hsame := unmarked_round_of_obey hdeed
  rw [hready] at hsame
  have hqueue := queue_of_unmarked hsame
  have hpc : e.machine.tick.1.pc = m.tick.1.pc := by
    rw [← Machine.pc_unmarked, htick, Machine.pc_unmarked]
  refine ⟨⟨(finished_of_unmarked hsame).trans h.live, run_of_unmarked hsame, ?_, ?_⟩,
    (machine_of_unmarked hsame).trans htick, ?_⟩
  · rw [hqueue]
    exact h.connected
  · rw [hqueue]
    rfl
  · rw [changes_round_of_obey hdeed, ← hpc, ← hfault]
    rfl

/-- **Steps** are ticks, one each, and tell as often that the emulator stopped. -/
theorem queued_runUntil (h : e.Queued (List.replicate n .step ++ cs)) :
    (e.runUntil Emulator.finished n).1.Queued cs ∧
      (e.runUntil Emulator.finished n).1.machine.unmarked = (e.machine.ticked n).unmarked ∧
      changes (e.runUntil Emulator.finished n).2 =
        (List.range n).map fun i =>
          ⟨.stopped, .stopped, (e.machine.ticked (i + 1)).pc, (e.machine.ticked i).tick.2⟩ := by
  induction n generalizing cs with
  | zero => exact ⟨h, rfl, rfl⟩
  | succ n ih =>
      rw [List.replicate_succ', List.append_assoc] at h
      obtain ⟨hqueued, hmachine, hchanges⟩ := ih h
      obtain ⟨hqueued', hmachine', hchange⟩ := hqueued.step hmachine
      rw [runUntil_succ, Machine.ticked_succ]
      refine ⟨hqueued', hmachine', ?_⟩
      rw [Emulated.snd_andThen, changes_append, hchanges, hchange, List.range_succ, List.map_append,
        ← Machine.ticked_succ]
      rfl

/-! ### The theorem -/

/-- **An emulator without pulses does to its machine what bare ticks do.**

* It is stopped, obeys a start and gets no other command, and its machine awaits nothing. If no tick
  of the bare machine ends the run, then it runs on, one tick a round. Else it comes to rest with the
  first tick that ends the run, in the state of the bare machine behind that tick apart from whether
  the picture was taken: stopped and with the fault told if the tick faulted, else running and
  without telling anything if something is awaited, else stopped and with the breakpoint told.
* It is stopped and gets `n` steps. Then it comes to rest, stopped, in the state of the bare machine
  behind `n` ticks, and has told of each that it stopped. -/
theorem run_eq_bare_ticks (e : Emulator) :
    (e.Queued [.start] → e.queue.period = none → e.machine.wait = .none →
      ((∀ i, ¬ e.machine.EndsAt e.breakpoints i) → ∀ i,
        (e.runUntil Emulator.finished (i + 1)).1.run = .running ∧
        (e.runUntil Emulator.finished (i + 1)).1.turn? ≠ none ∧
        (e.runUntil Emulator.finished (i + 1)).1.machine.unmarked = (e.machine.ticked i).unmarked ∧
        changes (e.runUntil Emulator.finished (i + 1)).2 =
          [⟨.running, .started, e.machine.pc, none⟩]) ∧
      (∀ i, e.machine.EndsAt e.breakpoints i → (∀ j < i, ¬ e.machine.EndsAt e.breakpoints j) →
        ∃ o, e.ComesToRest o ∧ EndsRun e.machine i o)) ∧
    (∀ n, e.Queued (List.replicate n .step) →
      ∃ o, e.ComesToRest o ∧ o.1.run = .stopped ∧
        o.1.machine.unmarked = (e.machine.ticked n).unmarked ∧
        changes o.2 = (List.range n).map fun i =>
          ⟨.stopped, .stopped, (e.machine.ticked (i + 1)).pc, (e.machine.ticked i).tick.2⟩) := by
  constructor
  · intro hqueued hperiod hwait
    have hstart : Drove (e.runUntil Emulator.finished 1) e.breakpoints e.machine 0 := by
      obtain ⟨hdrives, hskip, hchanges⟩ := drives_of_start hqueued hperiod
      rw [runUntil_succ]
      exact ⟨hdrives, hskip, hchanges⟩
    constructor
    · intro hendless i
      have hdrove := drove_runUntil hstart hwait fun j (_ : j < i) => hendless j
      have hdeed := hdrove.executes (goes_on hwait fun j _ => hendless j)
      refine ⟨hdrove.drives.run, ?_, hdrove.drives.machine, hdrove.told⟩
      rw [turn?_of_live hdrove.drives.live, hdeed]
      simp
    · intro i hends hgoes
      exact (drove_runUntil hstart hwait hgoes).exists_end (goes_on hwait hgoes) hends
  · intro n hqueued
    rw [← List.append_nil (List.replicate n Command.step)] at hqueued
    obtain ⟨hlast, hmachine, hchanges⟩ := queued_runUntil hqueued
    have hrest := hlast.quiet.rests (by simp [hlast.run])
    exact ⟨_, comesToRest_of_rest hlast.live hrest, hlast.run, hmachine, hchanges⟩

/-- A call and a jump to what is no instruction: the third tick ends the run. -/
theorem run_eq_bare_ticks_jump :
    (∃ o, ((new ⟨.glyphOne, 1, none⟩ .none).submit .start).1.ComesToRest o ∧ o.1.run = .stopped ∧
      changes o.2 = [⟨.running, .started, 5, none⟩,
        ⟨.stopped, .stopped, 0, some (.illegalInstruction 0 0xF090)⟩]) ∧
    (∃ o, ((new ⟨.glyphOne, 1, none⟩ .none).submit .step).1.ComesToRest o ∧ o.1.run = .stopped ∧
      changes o.2 = [⟨.stopped, .stopped, 16, none⟩]) := by
  have hfault : ((Machine.new .glyphOne).ticked 2).tick.2 = some (.illegalInstruction 0 0xF090) := by
    decide +kernel
  have hticks : ∀ j < 2, ((Machine.new .glyphOne).ticked j).tick.2 = none ∧
      ((Machine.new .glyphOne).ticked (j + 1)).wait = .none := by decide +kernel
  have hends : (Machine.new .glyphOne).EndsAt .none 2 := .inl (by simp [hfault])
  have hgoes : ∀ j < 2, ¬ (Machine.new .glyphOne).EndsAt .none j := by
    rintro j hj (hfaults | hawaits | ⟨temporary, hstops⟩)
    · exact hfaults (hticks j hj).1
    · exact hawaits (hticks j hj).2
    · cases hstops
  constructor
  · have hstart := (run_eq_bare_ticks ((new ⟨.glyphOne, 1, none⟩ .none).submit .start).1).1
    obtain ⟨o, hrest, hend⟩ := (hstart ⟨rfl, rfl, rfl, rfl⟩ rfl rfl).2 2 hends hgoes
    obtain ⟨hrun, hchanges⟩ := hend.of_fault hfault
    refine ⟨o, hrest, hrun, hchanges.trans ?_⟩
    decide +kernel
  · obtain ⟨o, hrest, hrun, -, hchanges⟩ :=
      (run_eq_bare_ticks ((new ⟨.glyphOne, 1, none⟩ .none).submit .step).1).2 1 ⟨rfl, rfl, rfl, rfl⟩
    refine ⟨o, hrest, hrun, hchanges.trans ?_⟩
    decide +kernel

end Emulator

end Chip8
