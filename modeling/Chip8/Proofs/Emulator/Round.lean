import Chip8.Emulator.Call
import Chip8.Proofs.Emulator.Effect

/-! # Rounds

What one round of the loop does, and what a history of rounds is.

* **Deeds.** `deed?` is what an emulator does next: it obeys a command, executes an instruction, stops
  at a breakpoint or ends. There is none for an emulator that has ended or can only wait for a
  command. A round is the `outcome` of its deed (`next?_eq`).
* **Cycles.** An emulator goes on by itself exactly if it is running, its queue is calm and awaits
  nothing (`cycles_iff`).
* **Histories.** Callers submit commands or go away, time passes, and between all that the emulator
  makes its rounds (`Move`). `after` is the emulator behind some moves, and `rounds` are the
  emulators in front of the rounds among them, in their order. -/

namespace Chip8

/-! ### The next command -/

namespace Queue

variable {q : Queue} {now : Nat}

/-- Nothing to hand out: there is no command, there may still come one, and no pulse is due. -/
structure Calm (q : Queue) (now : Nat) : Prop where
  pending : q.pending = []
  connected : q.connected = true
  noPulse : ∀ period, q.period = some period → now < q.nextPulse

theorem calm_of_no_period (hpending : q.pending = []) (hconnected : q.connected = true)
    (hperiod : q.period = none) : q.Calm now := by
  refine ⟨hpending, hconnected, ?_⟩
  intro period hsome
  rw [hperiod] at hsome
  cases hsome

theorem take_of_pending {c : Command} {cs : List Command} (h : q.pending = c :: cs) :
    q.take now = (.command c, { q with pending := cs }.restartPulses now) := by
  unfold take
  rw [h]

/-- A calm queue that awaits nothing lets the emulator go on. -/
theorem Calm.poll (h : q.Calm now) (hwait : q.wait = .none) : q.poll now = (.resume, q, now) := by
  have hempty : q.wait.isEmpty = true := WaitFlags.isEmpty_iff.mpr hwait
  unfold Queue.poll
  rw [h.pending]
  simp only [h.connected, if_true, hempty]
  cases hperiod : q.period with
  | none => rfl
  | some period =>
      have hearly : ¬ q.nextPulse ≤ now := Nat.not_le.mpr (h.noPulse period hperiod)
      simp only [if_neg hearly]

/-- **The emulator goes on** only at a calm queue that awaits nothing. -/
theorem calm_of_poll (h : (q.poll now).1 = .resume) : q.Calm now ∧ q.wait = .none := by
  unfold Queue.poll at h
  split at h
  · cases h
  · rename_i hpending
    split at h
    · rename_i hconnected
      split at h
      · rename_i hperiod
        split at h
        · rename_i hempty
          exact ⟨calm_of_no_period hpending hconnected hperiod, WaitFlags.isEmpty_iff.mp hempty⟩
        · cases h
      · rename_i period hperiod
        dsimp only at h
        split at h
        · cases h
        · rename_i hearly
          split at h
          · rename_i hempty
            exact ⟨⟨hpending, hconnected, fun _ _ => Nat.not_le.mp hearly⟩,
              WaitFlags.isEmpty_iff.mp hempty⟩
          · cases h
    · cases h

/-- A period that starts anew puts the next pulse off, and nothing else. -/
theorem restartPulses_eq (q : Queue) (now : Nat) :
    ∃ next, q.restartPulses now = { q with nextPulse := next } := by
  unfold restartPulses
  split
  · exact ⟨_, rfl⟩
  · exact ⟨q.nextPulse, rfl⟩

/-- Who looks at the queue takes the next command off it, and may put off the next pulse. -/
theorem poll_eq (q : Queue) (now : Nat) :
    ∃ next, (q.poll now).2.1 = { q with pending := q.pending.tail, nextPulse := next } := by
  cases q with
  | mk pending terminated connected attended wait period nextPulse =>
      cases pending with
      | cons c cs => exact ⟨nextPulse, rfl⟩
      | nil =>
          unfold poll
          dsimp only
          repeat' split
          all_goals exact ⟨_, rfl⟩

theorem take_eq (q : Queue) (now : Nat) :
    ∃ next, (q.take now).2 = { q with pending := q.pending.tail, nextPulse := next } := by
  cases q with
  | mk pending terminated connected attended wait period nextPulse =>
      cases pending with
      | cons c cs => exact restartPulses_eq _ now
      | nil => exact restartPulses_eq _ now

/-- Taking a command waits for one and does not go on without. -/
theorem take_ne_resume (q : Queue) (now : Nat) : (q.take now).1 ≠ .resume := by
  unfold take
  split
  · simp
  · split
    · simp
    · simp

end Queue

/-- What a round of the loop does. -/
inductive Deed where
  | obey (c : Command)
  /-- Execute an instruction. -/
  | execute
  /-- Stop at a breakpoint. -/
  | pause (b : Breakpoint)
  /-- Obey what is left, and end. -/
  | finish

namespace Emulator

variable {e : Emulator} {past : List Emulator} {b : Breakpoint} {c : Command} {d : Deed} {f : Fault}

/-- What the queue hands out, the queue behind that, and when. -/
def polled (e : Emulator) : Polled × Queue × Nat :=
  match e.run with
  | .running => e.queue.poll e.clock
  | _ => ((e.queue.take e.clock).1, (e.queue.take e.clock).2, e.clock)

/-- The emulator behind the look at its queue. -/
def ready (e : Emulator) : Emulator := { e with queue := e.polled.2.1, clock := e.polled.2.2 }

theorem polled_of_running (h : e.run = .running) : e.polled = e.queue.poll e.clock := by
  unfold polled
  rw [h]

theorem polled_of_not_running (h : e.run ≠ .running) :
    e.polled = ((e.queue.take e.clock).1, (e.queue.take e.clock).2, e.clock) := by
  unfold polled
  cases hrun : e.run with
  | running => exact absurd hrun h
  | stopped => rfl
  | stepping => rfl

/-- The emulator behind the look at its queue. -/
theorem ready_eq (e : Emulator) : ∃ next clock,
    e.ready = { e with
      queue := { e.queue with pending := e.queue.pending.tail, nextPulse := next }, clock := clock } := by
  unfold ready
  by_cases hrun : e.run = .running
  · obtain ⟨next, hqueue⟩ := e.queue.poll_eq e.clock
    rw [polled_of_running hrun]
    exact ⟨next, _, by rw [hqueue]⟩
  · obtain ⟨next, hqueue⟩ := e.queue.take_eq e.clock
    rw [polled_of_not_running hrun]
    exact ⟨next, _, by rw [hqueue]⟩

@[simp] theorem wait_ready (e : Emulator) : e.ready.queue.wait = e.queue.wait := by
  obtain ⟨next, clock, hready⟩ := ready_eq e
  rw [hready]

/-! ### Deeds -/

/-- What the emulator does next. -/
def deed? (e : Emulator) : Option Deed :=
  if e.finished then none
  else
    match e.polled.1 with
    | .command c => some (if c.isTerminate then .finish else .obey c)
    | .resume => some (match e.hit? with | some b => .pause b | none => .execute)
    | .disconnected => some .finish
    | .blocked => none

/-- A command that is pending is what the next round is about. -/
theorem deed?_of_pending (hlive : e.finished = false) {rest : List Command}
    (h : e.queue.pending = c :: rest) :
    e.deed? = some (if c.isTerminate then .finish else .obey c) := by
  have hpolled : e.polled.1 = .command c := by
    by_cases hrun : e.run = .running
    · rw [polled_of_running hrun, Queue.poll, h]
    · rw [polled_of_not_running hrun, Queue.take_of_pending h]
  unfold deed?
  simp [hlive, hpolled]

/-- The emulator that does not skip the next breakpoint. -/
def watchful (e : Emulator) : Emulator := { e with skipBreakpoint := false }

/-- What comes of a deed. -/
def outcome (e : Emulator) : Deed → Emulated
  | .obey c => e.ready.apply c
  | .execute => e.ready.watchful.executeNext
  | .pause b => e.ready.watchful.pauseAt b
  | .finish => e.ready.finish

/-- The next round, unless the emulator has ended or can only wait for a command. -/
def next? (e : Emulator) : Option Emulated := if e.finished then none else e.turn?

theorem turn?_eq (e : Emulator) :
    e.turn? = match e.polled.1 with
      | .command c => some (e.ready.obey c)
      | .resume => some e.ready.cycle
      | .disconnected => some e.ready.finish
      | .blocked => none := by
  unfold turn? ready polled
  cases hrun : e.run with
  | running => rfl
  | stopped => rfl
  | stepping => rfl

/-- **A round** does its deed. -/
theorem next?_eq (e : Emulator) : e.next? = e.deed?.map e.outcome := by
  unfold next? deed?
  split
  · rfl
  · rw [turn?_eq]
    cases e.polled.1 with
    | command c =>
        dsimp only
        unfold obey
        split
        · rfl
        · rfl
    | resume =>
        dsimp only
        cases hhit : e.hit? with
        | some b =>
            have hcycle : e.ready.cycle = e.ready.watchful.pauseAt b := cycle_of_hit hhit
            rw [hcycle]
            rfl
        | none =>
            have hcycle : e.ready.cycle = e.ready.watchful.executeNext := cycle_of_no_hit hhit
            rw [hcycle]
            rfl
    | disconnected => rfl
    | blocked => rfl

theorem turn?_of_live (h : e.finished = false) : e.turn? = e.deed?.map e.outcome := by
  rw [← next?_eq]
  unfold next?
  simp [h]

/-- A round, if the emulator makes one. -/
def round (e : Emulator) : Emulated := e.next?.getD (e, [])

theorem round_of_deed (h : e.deed? = some d) : e.round = e.outcome d := by
  unfold round
  rw [next?_eq, h]
  rfl

theorem round_of_rest (h : e.deed? = none) : e.round = (e, []) := by
  unfold round
  rw [next?_eq, h]
  rfl

/-! ### Cycles -/

/-- The next round goes on without a command: it executes or stops at a breakpoint. -/
def Cycles (e : Emulator) : Prop := e.deed? = some .execute ∨ ∃ b, e.deed? = some (.pause b)

theorem polled_of_cycles (h : e.Cycles) : e.finished = false ∧ e.polled.1 = .resume := by
  unfold Cycles deed? at h
  cases hfin : e.finished with
  | true => simp [hfin] at h
  | false =>
      refine ⟨rfl, ?_⟩
      cases hpolled : e.polled.1 with
      | command c =>
          cases hend : c.isTerminate with
          | true => simp [hfin, hpolled, hend] at h
          | false => simp [hfin, hpolled, hend] at h
      | resume => rfl
      | disconnected => simp [hfin, hpolled] at h
      | blocked => simp [hfin, hpolled] at h

theorem deed?_of_resume (hfin : e.finished = false) (h : e.polled.1 = .resume) :
    e.deed? = some (match e.hit? with | some b => .pause b | none => .execute) := by
  unfold deed?
  simp [hfin, h]

/-- **An emulator goes on** exactly if it is running and its queue is calm and awaits nothing. -/
theorem cycles_iff : e.Cycles ↔
    e.finished = false ∧ e.run = .running ∧ e.queue.Calm e.clock ∧ e.queue.wait = .none := by
  constructor
  · intro h
    obtain ⟨hfin, hpolled⟩ := polled_of_cycles h
    by_cases hrun : e.run = .running
    · rw [polled_of_running hrun] at hpolled
      exact ⟨hfin, hrun, Queue.calm_of_poll hpolled⟩
    · rw [polled_of_not_running hrun] at hpolled
      exact absurd hpolled (Queue.take_ne_resume _ _)
  · rintro ⟨hfin, hrun, hcalm, hwait⟩
    have hpolled : e.polled.1 = .resume := by
      rw [polled_of_running hrun, hcalm.poll hwait]
    unfold Cycles
    rw [deed?_of_resume hfin hpolled]
    cases e.hit? with
    | none => exact .inl rfl
    | some b => exact .inr ⟨b, rfl⟩

theorem ready_of_cycles (h : e.Cycles) : e.ready = e := by
  obtain ⟨-, hrun, hcalm, hwait⟩ := cycles_iff.mp h
  unfold ready
  rw [polled_of_running hrun, hcalm.poll hwait]

theorem deed?_of_cycles (h : e.Cycles) :
    e.deed? = some (match e.hit? with | some b => .pause b | none => .execute) := by
  obtain ⟨hfin, hpolled⟩ := polled_of_cycles h
  exact deed?_of_resume hfin hpolled

theorem execute_iff : e.deed? = some .execute ↔ e.Cycles ∧ e.hit? = none := by
  constructor
  · intro h
    have hcycles : e.Cycles := .inl h
    rw [deed?_of_cycles hcycles] at h
    refine ⟨hcycles, ?_⟩
    cases hhit : e.hit? with
    | none => rfl
    | some b => simp [hhit] at h
  · rintro ⟨hcycles, hhit⟩
    rw [deed?_of_cycles hcycles, hhit]

theorem pause_iff : e.deed? = some (.pause b) ↔ e.Cycles ∧ e.hit? = some b := by
  constructor
  · intro h
    have hcycles : e.Cycles := .inr ⟨b, h⟩
    rw [deed?_of_cycles hcycles] at h
    refine ⟨hcycles, ?_⟩
    cases hhit : e.hit? with
    | none => simp [hhit] at h
    | some a =>
        rw [hhit] at h
        cases h
        rfl
  · rintro ⟨hcycles, hhit⟩
    rw [deed?_of_cycles hcycles, hhit]

/-! ### What rounds leave behind -/

theorem unmarked_round_of_obey (h : e.deed? = some (.obey c)) :
    e.round.1.unmarked = (e.ready.obeyed c).unmarked := by
  rw [round_of_deed h]
  exact unmarked_apply e.ready c

theorem changes_round_of_obey (h : e.deed? = some (.obey c)) :
    changes e.round.2 = e.changesOf c := by
  rw [round_of_deed h]
  refine (changes_apply e.ready c).trans ?_
  cases c
  all_goals rfl

theorem round_of_execute (h : e.deed? = some .execute) : e.round = e.watchful.executeNext := by
  rw [round_of_deed h]
  unfold outcome
  rw [ready_of_cycles (.inl h)]

theorem round_of_pause (h : e.deed? = some (.pause b)) : e.round = e.watchful.pauseAt b := by
  rw [round_of_deed h]
  unfold outcome
  rw [ready_of_cycles (.inr ⟨b, h⟩)]

theorem unmarked_round_of_success (h : e.deed? = some .execute) (hdone : e.machine.tick.2 = none) :
    e.round.1.unmarked = e.watchful.executed.unmarked := by
  rw [round_of_execute h]
  exact unmarked_executeNext_of_success hdone

theorem changes_round_of_success (h : e.deed? = some .execute) (hdone : e.machine.tick.2 = none) :
    changes e.round.2 = [] := by
  rw [round_of_execute h]
  exact changes_executeNext_of_success hdone

theorem unmarked_round_of_fault (h : e.deed? = some .execute) (hfault : e.machine.tick.2 = some f) :
    e.round.1.unmarked = { e.watchful with run := .stopped }.unmarked := by
  rw [round_of_execute h]
  exact unmarked_executeNext_of_fault hfault

theorem changes_round_of_fault (h : e.deed? = some .execute) (hfault : e.machine.tick.2 = some f) :
    changes e.round.2 = [⟨.stopped, .stopped, e.machine.pc, some f⟩] := by
  rw [round_of_execute h]
  exact changes_executeNext_of_fault hfault

theorem unmarked_round_of_pause (h : e.deed? = some (.pause b)) :
    e.round.1.unmarked =
      { e.watchful with breakpoints := e.breakpointsBehind b, run := .stopped }.unmarked := by
  rw [round_of_pause h]
  exact unmarked_pauseAt e.watchful b

theorem changes_round_of_pause (h : e.deed? = some (.pause b)) :
    changes e.round.2 = [⟨.stopped, .stoppedBreakpoint, e.machine.pc, none⟩] := by
  rw [round_of_pause h]
  exact changes_pauseAt e.watchful b

/-- All that a round can do. -/
inductive RoundCases (e : Emulator) : Prop where
  | rests (hdeed : e.deed? = none) (hround : e.round = (e, []))
  | obeys (c : Command) (hdeed : e.deed? = some (.obey c))
      (hsame : e.round.1.unmarked = (e.ready.obeyed c).unmarked)
      (htold : changes e.round.2 = e.changesOf c)
  | executes (hdeed : e.deed? = some .execute) (hdone : e.machine.tick.2 = none)
      (hsame : e.round.1.unmarked = e.watchful.executed.unmarked) (htold : changes e.round.2 = [])
  | faults (f : Fault) (hdeed : e.deed? = some .execute) (hfault : e.machine.tick.2 = some f)
      (hsame : e.round.1.unmarked = { e.watchful with run := .stopped }.unmarked)
      (htold : changes e.round.2 = [⟨.stopped, .stopped, e.machine.pc, some f⟩])
  | pauses (b : Breakpoint) (hdeed : e.deed? = some (.pause b))
      (hsame : e.round.1.unmarked =
        { e.watchful with breakpoints := e.breakpointsBehind b, run := .stopped }.unmarked)
      (htold : changes e.round.2 = [⟨.stopped, .stoppedBreakpoint, e.machine.pc, none⟩])
  | finishes (hdeed : e.deed? = some .finish) (hround : e.round = e.ready.finish)

/-- **Every round** is one of these; a proof about rounds goes by these cases. -/
theorem round_cases (e : Emulator) : e.RoundCases := by
  cases hdeed : e.deed? with
  | none => exact .rests hdeed (round_of_rest hdeed)
  | some d =>
      cases d with
      | obey c => exact .obeys c hdeed (unmarked_round_of_obey hdeed) (changes_round_of_obey hdeed)
      | execute =>
          cases htick : e.machine.tick.2 with
          | none =>
              exact .executes hdeed htick (unmarked_round_of_success hdeed htick)
                (changes_round_of_success hdeed htick)
          | some f =>
              exact .faults f hdeed htick (unmarked_round_of_fault hdeed htick)
                (changes_round_of_fault hdeed htick)
      | pause b =>
          exact .pauses b hdeed (unmarked_round_of_pause hdeed) (changes_round_of_pause hdeed)
      | finish => exact .finishes hdeed (round_of_deed hdeed)

/-! ### The end -/

@[simp] theorem run_finish (e : Emulator) : e.finish.1.run = .stopped := rfl

theorem deed?_of_finished (h : e.finished = true) : e.deed? = none := by
  unfold deed?
  rw [if_pos h]

/-- A command leaves alone what is the loop's: the queue, except for what is awaited, the hooks, and whether
the emulator has ended. -/
theorem obeyed_spares (e : Emulator) (c : Command) :
    (∃ wait, (e.obeyed c).queue = e.queue.setWait wait) ∧ (e.obeyed c).hooks = e.hooks ∧
      (e.obeyed c).finished = e.finished := by
  cases c with
  | start | stop | load address bytes =>
      dsimp only [obeyed]
      split
      · exact ⟨⟨_, rfl⟩, rfl, rfl⟩
      · exact ⟨⟨_, rfl⟩, rfl, rfl⟩
  | step | reset | terminate | run task | changeBreakpoints change | keyDown key | keyUp key
  | pulse | setSpeed speed => exact ⟨⟨_, rfl⟩, rfl, rfl⟩

@[simp] theorem finished_obeyed (e : Emulator) (c : Command) :
    (e.obeyed c).finished = e.finished :=
  (e.obeyed_spares c).2.2

/-- An emulator ends by one deed only. -/
theorem unfinished_round (hlive : e.finished = false) (hdeed : e.deed? ≠ some .finish) :
    e.round.1.finished = false := by
  cases e.round_cases with
  | rests _ hround =>
      rw [hround]
      exact hlive
  | obeys c _ hsame _ =>
      rw [finished_of_unmarked hsame, finished_obeyed]
      exact hlive
  | executes _ _ hsame _ => exact (finished_of_unmarked hsame).trans hlive
  | faults f _ _ hsame _ => exact (finished_of_unmarked hsame).trans hlive
  | pauses b _ hsame _ => exact (finished_of_unmarked hsame).trans hlive
  | finishes hfinish _ => exact absurd hfinish hdeed

/-! ### Histories -/

/-- What happens to an emulator. -/
inductive Move where
  | submit (c : Command)
  /-- All callers go away. -/
  | disconnect
  /-- Time passes, in nanoseconds. -/
  | elapse (time : Nat)
  | round

/-- The emulator behind a move. -/
def Move.apply (e : Emulator) : Move → Emulator
  | submit c => (e.submit c).1
  | disconnect => e.disconnect
  | elapse time => { e with clock := e.clock + time }
  | round => e.round.1

/-- The emulator behind some moves. -/
def after (e : Emulator) (moves : List Move) : Emulator := moves.foldl Move.apply e

/-- The emulators in front of the rounds among some moves. -/
def rounds : Emulator → List Move → List Emulator
  | _, [] => []
  | e, .round :: moves => e :: rounds e.round.1 moves
  | e, m :: moves => rounds (m.apply e) moves

@[simp] theorem after_cons (e : Emulator) (m : Move) (moves : List Move) :
    e.after (m :: moves) = (m.apply e).after moves := rfl

@[simp] theorem rounds_cons_round (e : Emulator) (moves : List Move) :
    e.rounds (.round :: moves) = e :: e.round.1.rounds moves := rfl

theorem rounds_cons_of_ne {m : Move} (h : m ≠ .round) (e : Emulator) (moves : List Move) :
    e.rounds (m :: moves) = (m.apply e).rounds moves := by
  cases m with
  | round => exact absurd rfl h
  | submit c | disconnect | elapse time => rfl

/-- Between rounds an emulator's queue changes, though not what it awaits, and the time. -/
theorem Move.apply_eq {m : Move} (h : m ≠ .round) (e : Emulator) :
    ∃ queue clock, queue.wait = e.queue.wait ∧
      m.apply e = { e with queue := queue, clock := clock } := by
  cases m with
  | submit c =>
      refine ⟨(e.queue.submit c).1, e.clock, ?_, rfl⟩
      unfold Queue.submit
      split
      · rfl
      · dsimp only
        split
        · rfl
        · rfl
  | disconnect => exact ⟨e.queue.disconnect, e.clock, rfl, rfl⟩
  | elapse time => exact ⟨e.queue, e.clock + time, rfl, rfl⟩
  | round => exact absurd rfl h

/-- **What holds of histories** holds at first, behind every round, and whatever happens between
rounds. -/
theorem history_induction {P : List Emulator → Emulator → Prop}
    (hround : ∀ past e, P past e → P (past ++ [e]) e.round.1)
    (hbetween : ∀ past e queue clock, queue.wait = e.queue.wait → P past e →
      P past { e with queue := queue, clock := clock })
    (past : List Emulator) (h : P past e) (moves : List Move) :
    P (past ++ e.rounds moves) (e.after moves) := by
  induction moves generalizing past e with
  | nil =>
      rw [rounds, List.append_nil]
      exact h
  | cons m moves ih =>
      by_cases hm : m = .round
      · subst hm
        have hnext := ih (past ++ [e]) (hround past e h)
        rwa [List.append_assoc] at hnext
      · obtain ⟨queue, clock, hwait, happly⟩ := Move.apply_eq hm e
        have hnext := ih past (hbetween past e queue clock hwait h)
        rw [rounds_cons_of_ne hm, after_cons, happly]
        exact hnext

/-- An emulator that was made and moved on, and those in front of its rounds until now. -/
def Reached (past : List Emulator) (e : Emulator) : Prop :=
  ∃ config observers moves,
    past = (new config observers).rounds moves ∧ e = (new config observers).after moves

theorem Reached.after (h : Reached past e) (moves : List Move) :
    ∃ past', Reached past' (e.after moves) := by
  obtain ⟨config, observers, before, -, rfl⟩ := h
  exact ⟨_, config, observers, before ++ moves, rfl, List.foldl_append.symm⟩

/-- Every round among some moves is made behind some of them. -/
theorem exists_after_of_mem_rounds {x : Emulator} {moves : List Move} (h : x ∈ e.rounds moves) :
    ∃ first, x = e.after first := by
  induction moves generalizing e with
  | nil => cases h
  | cons m moves ih =>
      have hlater : x ∈ (m.apply e).rounds moves → ∃ first, x = e.after first := by
        intro hx
        obtain ⟨first, hfirst⟩ := ih hx
        exact ⟨m :: first, hfirst⟩
      by_cases hm : m = .round
      · subst hm
        rcases List.mem_cons.mp h with rfl | hx
        · exact ⟨[], rfl⟩
        · exact hlater hx
      · rw [rounds_cons_of_ne hm] at h
        exact hlater h

theorem Reached.induction {P : List Emulator → Emulator → Prop}
    (hnew : ∀ config observers, P [] (new config observers))
    (hround : ∀ past e, P past e → P (past ++ [e]) e.round.1)
    (hbetween : ∀ past e queue clock, queue.wait = e.queue.wait → P past e →
      P past { e with queue := queue, clock := clock })
    (h : Reached past e) : P past e := by
  obtain ⟨config, observers, moves, rfl, rfl⟩ := h
  exact history_induction hround hbetween [] (hnew config observers) moves

end Emulator

end Chip8
