import Chip8.Proofs.Emulator.Round

/-! # Waiting

Machine and queue each keep what is awaited: the machine, since an instruction can wait for an event,
and the queue, since it decides whether execution goes on.

* **One step.** Whatever a command or a cycle changes, the two agree behind it if they agreed in front
  of it (`wait_obeyed`, `wait_round`).
* **Histories.** So they always agree, and a running emulator neither executes while its machine waits
  nor waits while its machine could execute (`queue_mirrors_machine`). -/

namespace Chip8

namespace Queue

variable {q : Queue}

/-- A queue that awaits nothing hands something out, or lets the emulator go on, at once. -/
theorem poll_at_once (hwait : q.wait = .none) (now : Nat) :
    (q.poll now).1 ≠ .blocked ∧ (q.poll now).2.2 = now := by
  have hempty : q.wait.isEmpty = true := WaitFlags.isEmpty_iff.mpr hwait
  unfold Queue.poll
  simp only [hempty, if_true]
  split
  · simp
  · split
    · split
      · simp
      · split
        · simp
        · simp
    · simp

end Queue

namespace Emulator

variable {e : Emulator} {past : List Emulator} {c : Command}

/-! ### One step -/

theorem waits_of_unmarked {e' : Emulator} (h : e.unmarked = e'.unmarked)
    (hwait : e'.queue.wait = e'.machine.wait) : e.queue.wait = e.machine.wait := by
  rw [queue_of_unmarked h, wait_of_unmarked h]
  exact hwait

theorem wait_reloaded (e : Emulator) : e.reloaded.wait = e.machine.wait := by
  rcases e.reloaded_cases with hsame | ⟨address, bytes, hload⟩
  · rw [hsame]
  · obtain ⟨memory, hmemory⟩ := Machine.load_eq_ok hload
    rw [hmemory]

/-- A command leaves the queue awaiting what the machine awaits. -/
theorem wait_obeyed (h : e.queue.wait = e.machine.wait) (c : Command) :
    (e.obeyed c).queue.wait = (e.obeyed c).machine.wait := by
  cases c with
  | start =>
      dsimp only [obeyed]
      split
      · exact h
      · rfl
  | stop =>
      dsimp only [obeyed]
      split
      · exact h
      · exact h
  | reset =>
      show WaitFlags.none = ({ e with machine := e.machine.reset }.reloaded).wait
      rw [wait_reloaded]
      rfl
  | load address bytes =>
      dsimp only [obeyed]
      split
      · rename_i machine hload
        obtain ⟨memory, rfl⟩ := Machine.load_eq_ok hload
        exact h
      · exact h
  | step | run task | keyDown key | keyUp key | pulse => rfl
  | terminate | changeBreakpoints change | setSpeed speed => exact h

theorem wait_apply (h : e.queue.wait = e.machine.wait) (c : Command) :
    (e.apply c).1.queue.wait = (e.apply c).1.machine.wait :=
  waits_of_unmarked (unmarked_apply e c) (wait_obeyed h c)

theorem wait_finish (h : e.queue.wait = e.machine.wait) :
    e.finish.1.queue.wait = e.finish.1.machine.wait := by
  have hdrained : e.drained.1.queue.wait = e.drained.1.machine.wait := by
    unfold drained
    refine applyAll_induction (P := fun e => e.queue.wait = e.machine.wait) ?_ ?_ _
    · exact fun _ c hsame => wait_apply hsame c
    · exact h
  exact hdrained

/-- A round leaves the queue awaiting what the machine awaits, also one whose tick faults: nothing is
told to the queue then, and nothing has changed. -/
theorem wait_round (h : e.queue.wait = e.machine.wait) :
    e.round.1.queue.wait = e.round.1.machine.wait := by
  have hready : e.ready.queue.wait = e.ready.machine.wait := (wait_ready e).trans h
  cases e.round_cases with
  | rests _ hround =>
      rw [hround]
      exact h
  | obeys c _ hsame _ => exact waits_of_unmarked hsame (wait_obeyed hready c)
  | executes _ _ hsame _ => exact waits_of_unmarked hsame rfl
  | faults f _ _ hsame _ => exact waits_of_unmarked hsame h
  | pauses b _ hsame _ => exact waits_of_unmarked hsame h
  | finishes _ hround =>
      rw [hround]
      exact wait_finish hready

/-! ### Histories -/

/-- An emulator that has ended is stopped. -/
theorem run_of_finished (h : Reached past e) : e.finished = true → e.run = .stopped := by
  refine h.induction (P := fun _ e => e.finished = true → e.run = .stopped) ?new ?round ?between
  case new => exact fun config observers _ => rfl
  case between => exact fun past e queue clock _ ih => ih
  case round =>
    intro past e ih hfin
    cases hlive : e.finished with
    | true =>
        rw [round_of_rest (deed?_of_finished hlive)]
        exact ih hlive
    | false =>
        by_cases hdeed : e.deed? = some .finish
        · rw [round_of_deed hdeed]
          exact run_finish e.ready
        · rw [unfinished_round hlive hdeed] at hfin
          cases hfin

/-- Machine and queue always agree about what is awaited. -/
theorem wait_of_reached (h : Reached past e) : e.queue.wait = e.machine.wait := by
  refine h.induction (P := fun _ e => e.queue.wait = e.machine.wait) ?new ?round ?between
  case new => exact fun config observers => rfl
  case round => exact fun past e ih => wait_round ih
  case between => exact fun past e queue clock hwait ih => hwait.trans ih

/-- **The queue awaits what the machine awaits**, whatever commands, tasks and cycles came before, in
whatever order. Hence a running emulator at a calm queue goes on exactly if its machine awaits nothing,
and then it executes unless it stops at a breakpoint; no cycle is made while the machine awaits
something; and while it awaits nothing, a running emulator has something to do at once. -/
theorem queue_mirrors_machine (h : Reached past e) :
    e.queue.wait = e.machine.wait ∧
      (e.run = .running → e.queue.Calm e.clock →
        (e.Cycles ↔ e.machine.wait = .none) ∧
          (e.deed? = some .execute ↔ e.machine.wait = .none ∧ e.hit? = none)) ∧
      (e.Cycles → e.machine.wait = .none) ∧
      (e.run = .running → e.machine.wait = .none → e.deed? ≠ none ∧ e.ready.clock = e.clock) := by
  have hsame : e.queue.wait = e.machine.wait := wait_of_reached h
  have hlive : e.run = .running → e.finished = false := by
    intro hrun
    cases hfin : e.finished with
    | false => rfl
    | true => simp [run_of_finished h hfin] at hrun
  have hgoes : e.run = .running → e.queue.Calm e.clock → (e.Cycles ↔ e.machine.wait = .none) := by
    intro hrun hcalm
    rw [cycles_iff, hsame]
    exact ⟨fun h => h.2.2.2, fun hwait => ⟨hlive hrun, hrun, hcalm, hwait⟩⟩
  refine ⟨hsame, fun hrun hcalm => ⟨hgoes hrun hcalm, ?_⟩, fun hcycles => ?_, ?_⟩
  · rw [execute_iff, hgoes hrun hcalm]
  · exact hsame.symm.trans (cycles_iff.mp hcycles).2.2.2
  · intro hrun hwait
    obtain ⟨hhands, hclock⟩ := Queue.poll_at_once (hsame.trans hwait) e.clock
    rw [← polled_of_running hrun] at hhands hclock
    refine ⟨?_, hclock⟩
    unfold deed?
    rw [hlive hrun]
    cases hpolled : e.polled.1 with
    | blocked => exact absurd hpolled hhands
    | command c => simp
    | resume => simp
    | disconnected => simp

/-- What leads to a running machine that a failed task left waiting for a key. -/
def keyless : List Move :=
  [.submit (.run fun m => (m.await { WaitFlags.none with keyPress := true }, .error "no key")),
    .round, .submit .start, .round]

/-- What leads from there to the end of that wait. -/
def keystroke : List Move := [.submit (.keyDown 3), .round, .submit (.keyUp 3), .round]

theorem queue_mirrors_machine_keystroke :
    ¬ ((new ⟨.glyphOne, 1, none⟩ .none).after keyless).Cycles ∧
      ((new ⟨.glyphOne, 1, none⟩ .none).after (keyless ++ keystroke)).Cycles := by
  have hwaiting := queue_mirrors_machine ⟨⟨.glyphOne, 1, none⟩, .none, keyless, rfl, rfl⟩
  have hgoing := queue_mirrors_machine ⟨⟨.glyphOne, 1, none⟩, .none, keyless ++ keystroke, rfl, rfl⟩
  constructor
  · intro hcycles
    exact absurd (hwaiting.2.2.1 hcycles) (by decide)
  · exact (hgoing.2.1 rfl (Queue.calm_of_no_period rfl rfl rfl)).1.mpr rfl

end Emulator

end Chip8
