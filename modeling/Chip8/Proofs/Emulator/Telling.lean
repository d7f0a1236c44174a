import Chip8.Proofs.Emulator.Acts
import Mathlib.Data.List.Chain

/-! # Telling

What an emulator tells of its run state can be relied on.

* **One act** tells nothing and leaves the run state, or tells that execution was started, or tells that it
  was stopped (`tells`). A fault is told by the act that came upon it.
* **Logs.** `Faithful` is the invariant of the changes told so far: the last one carries the run state, and
  no start follows on a start (`faithful_of_passed`).
* **All of it** is `told_of_passed`. -/

namespace Chip8

/-- The run state that the last of some changes carries; at first an emulator is stopped. -/
def lastTold (log : List StateChange) : RunState := (log.getLast?.map StateChange.state).getD .stopped

@[simp] theorem lastTold_append_singleton (log : List StateChange) (change : StateChange) :
    lastTold (log ++ [change]) = change.state := by
  simp [lastTold]

/-- Whether an act has the machine execute. -/
def Act.Ticks (e : Emulator) : Act → Prop
  | obey .step => True
  | obey _ => False
  | cycle => e.hit? = none
  | leave => False

namespace Emulator

variable {e x : Emulator} {a : Act} {c : Command} {f : Fault} {config : EmulatorConfig}
  {observers : Observers} {before : Record} {log : List StateChange}

/-! ### One act -/

/-- What an act tells of the run state. -/
inductive Tells (x : Emulator) (a : Act) : Prop where
  | nothing (htold : changes (a.perform x).2 = []) (hrun : (a.perform x).1.run = x.run)
      (hticks : a.Ticks x → x.machine.tick.2 = none)
  | start (htold : changes (a.perform x).2 = [⟨.running, .started, x.machine.pc, none⟩])
      (hrun : (a.perform x).1.run = .running) (hidle : x.run ≠ .running) (hticks : ¬ a.Ticks x)
  | stop (change : StateChange) (htold : changes (a.perform x).2 = [change])
      (hrun : (a.perform x).1.run = .stopped) (hstate : change.state = .stopped)
      (hreason : change.reason ≠ .started)
      (hfault : ∀ f, change.fault = some f ↔ a.Ticks x ∧ x.machine.tick.2 = some f)
      (hplace : change.fault ≠ none → change = ⟨.stopped, .stopped, x.machine.pc, change.fault⟩)

/-- A stop that is not due to a fault. -/
theorem Tells.of_stop {reason : Reason} {pc : UInt16}
    (htold : changes (a.perform x).2 = [⟨.stopped, reason, pc, none⟩])
    (hrun : (a.perform x).1.run = .stopped) (hreason : reason ≠ .started) (hticks : ¬ a.Ticks x) :
    x.Tells a := by
  refine .stop _ htold hrun rfl hreason ?_ (fun hfault => absurd rfl hfault)
  intro f
  simp [hticks]

theorem tells_obey (x : Emulator) (c : Command) : x.Tells (.obey c) := by
  have hsame : ((Act.obey c).perform x).1.run = (x.obeyed c).run := run_of_unmarked (unmarked_apply x c)
  have htold : changes ((Act.obey c).perform x).2 = x.changesOf c := changes_apply x c
  have hquiet : x.changesOf c = [] → (x.obeyed c).run = x.run → ¬ (Act.obey c).Ticks x →
      x.Tells (.obey c) := fun hsilent hrun hticks =>
    .nothing (htold.trans hsilent) (hsame.trans hrun) (fun hobey => absurd hobey hticks)
  cases c with
  | start =>
      by_cases hrun : x.run = .running
      · exact hquiet (if_pos hrun) (by simp [obeyed, hrun]) (by simp [Act.Ticks])
      · refine .start (htold.trans (if_neg hrun)) ?_ hrun (by simp [Act.Ticks])
        rw [hsame, obeyed, if_neg hrun]
        rfl
  | stop | reset =>
      by_cases hrun : x.run = .running
      · refine .of_stop (htold.trans (if_pos hrun)) ?_ (by simp) (by simp [Act.Ticks])
        rw [hsame]
        simp [obeyed, hrun]
      · exact hquiet (if_neg hrun) (by simp [obeyed, hrun]) (by simp [Act.Ticks])
  | step =>
      refine .stop _ htold hsame rfl (by simp) ?_ ?_
      · intro f
        simp [Act.Ticks]
      · intro hfault
        obtain ⟨f, hf⟩ := Option.ne_none_iff_exists'.mp hfault
        have hplace : x.machine.tick.1 = x.machine := congrArg Prod.fst (Machine.tick_eq_of_fault hf)
        simp only [hplace]
  | load address bytes =>
      refine hquiet rfl ?_ (by simp [Act.Ticks])
      dsimp only [obeyed]
      split
      · rfl
      · rfl
  | terminate | run task | changeBreakpoints change | keyDown key | keyUp key | pulse
  | setSpeed speed => exact hquiet rfl rfl (by simp [Act.Ticks])

/-- **An act** tells of the run state what it does to it. -/
theorem tells (x : Emulator) (a : Act) : x.Tells a := by
  cases x.act_cases a with
  | obeys c _ _ => exact tells_obey x c
  | pauses b hhit hsame htold =>
      refine .of_stop htold (run_of_unmarked hsame) (by simp) ?_
      simp [Act.Ticks, hhit]
  | executes _ hdone hsame htold =>
      exact .nothing htold ((run_of_unmarked hsame).trans rfl) (fun _ => hdone)
  | faults f hhit hfault hsame htold =>
      refine .stop _ htold (run_of_unmarked hsame) rfl (by simp) ?_ (fun _ => rfl)
      intro g
      simp [Act.Ticks, hhit, hfault]
  | leaves hsame htold =>
      exact .of_stop htold rfl (by simp) (by simp [Act.Ticks])

/-! ### Logs -/

/-- The changes told so far are faithful. -/
structure Faithful (log : List StateChange) (e : Emulator) : Prop where
  run : e.run = .stopped ∨ e.run = .running
  last : e.run = lastTold log
  states : ∀ change ∈ log, change.state = if change.reason = .started then .running else .stopped
  starts : log.IsChain fun earlier later => later.reason = .started → earlier.reason ≠ .started
  finished : e.finished = true → log.getLast? = some ⟨.stopped, .stopped, e.machine.pc, none⟩

/-- A start is told only where the last change was no start. -/
theorem Faithful.reason_of_idle (h : Faithful log e) (hidle : e.run ≠ .running) :
    ∀ change ∈ log.getLast?, change.reason ≠ .started := by
  intro change hlast hreason
  have hstate := h.states change (List.mem_of_mem_getLast? hlast)
  rw [if_pos hreason] at hstate
  refine hidle ?_
  rw [h.last, lastTold, Option.mem_def.mp hlast]
  exact hstate

/-- **One act** keeps the log faithful. -/
theorem Faithful.perform (h : Faithful log e) (hlive : e.finished = false) (a : Act) :
    Faithful (log ++ changes (a.perform e).2) (a.perform e).1 := by
  have hends : (a.perform e).1.finished = true →
      (log ++ changes (a.perform e).2).getLast? =
        some ⟨.stopped, .stopped, (a.perform e).1.machine.pc, none⟩ := by
    intro hfin
    by_cases hleave : a = .leave
    · subst hleave
      show (log ++ changes e.leave.2).getLast? = _
      rw [changes_leave, List.getLast?_concat]
      rfl
    · rw [finished_perform hleave, hlive] at hfin
      cases hfin
  cases e.tells a with
  | nothing htold hrun _ =>
      rw [htold, List.append_nil] at hends ⊢
      exact ⟨by rw [hrun]; exact h.run, hrun.trans h.last, h.states, h.starts, hends⟩
  | start htold hrun hidle _ =>
      rw [htold] at hends ⊢
      refine ⟨.inr hrun, by rw [hrun, lastTold_append_singleton], ?_, ?_, hends⟩
      · intro change hmem
        rcases List.mem_append.mp hmem with hmem | hmem
        · exact h.states change hmem
        · obtain rfl := List.mem_singleton.mp hmem
          rfl
      · refine List.isChain_append.mpr ⟨h.starts, List.isChain_singleton _, ?_⟩
        intro earlier hlast later _ _
        exact h.reason_of_idle hidle earlier hlast
  | stop change htold hrun hstate hreason _ _ =>
      rw [htold] at hends ⊢
      refine ⟨.inl hrun, by rw [hrun, lastTold_append_singleton, hstate], ?_, ?_, hends⟩
      · intro change' hmem
        rcases List.mem_append.mp hmem with hmem | hmem
        · exact h.states change' hmem
        · obtain rfl := List.mem_singleton.mp hmem
          rw [if_neg hreason, hstate]
      · refine List.isChain_append.mpr ⟨h.starts, List.isChain_singleton _, ?_⟩
        intro earlier _ later hhead hstarted
        obtain rfl : change = later := by simpa using hhead
        exact absurd hstarted hreason

/-- **All that was told** is faithful wherever a history stands. -/
theorem faithful_of_passed (h : Passed config observers before e) :
    Faithful (changes before.events) e := by
  refine h.induction (P := fun before e => Faithful (changes before.events) e) ?new ?act ?between
  case new => exact ⟨.inl rfl, rfl, by simp [Record.events], List.isChain_nil, by simp [new]⟩
  case act =>
    intro before x a hlive hfaithful
    rw [Record.events_append, Record.events_singleton, changes_append]
    exact hfaithful.perform hlive a
  case between =>
    intro before x queue clock _ hfaithful
    exact ⟨hfaithful.run, hfaithful.last, hfaithful.states, hfaithful.starts, hfaithful.finished⟩

/-- Between two starts a stop is told. -/
theorem Faithful.exists_stop_between {earlier between later : List StateChange} {first second : StateChange}
    (h : Faithful (earlier ++ first :: between ++ second :: later) e)
    (hfirst : first.reason = .started) (hsecond : second.reason = .started) :
    ∃ change ∈ between, change.reason ≠ .started := by
  obtain ⟨-, -, hjoint⟩ := List.isChain_append.mp h.starts
  obtain ⟨last, hlast⟩ : ∃ last, (first :: between).getLast? = some last :=
    ⟨_, List.getLast?_eq_getLast_of_ne_nil (List.cons_ne_nil _ _)⟩
  have hstopped : last.reason ≠ .started := by
    refine hjoint last ?_ second (by simp) hsecond
    rw [List.getLast?_append, hlast]
    rfl
  rcases List.mem_cons.mp (List.mem_of_getLast? hlast) with rfl | hmem
  · exact absurd hfirst hstopped
  · exact ⟨last, hmem, hstopped⟩

/-! ### All of it -/

/-- A reason that is not a start is a stop. -/
theorem stop_of_ne_started {reason : Reason} (h : reason ≠ .started) :
    reason = .stopped ∨ reason = .stoppedBreakpoint := by
  cases reason with
  | started => exact absurd rfl h
  | stopped => exact .inl rfl
  | stoppedBreakpoint => exact .inr rfl

/-- **What is told of the run state can be relied on.** Wherever a history stands, between rounds or
between the commands that are obeyed at the end:

* the emulator is stopped or running, and that is what was told last, or it is stopped and nothing was
  told;
* a start was told with a running emulator and a stop with a stopped one, and between two starts a stop
  was told;
* whatever is done next, a change that is told carries the run state that holds then, a start is told
  only of an emulator that was stopped, and a fault is told exactly by the act whose instruction came
  upon it, with the stop at that instruction;
* if the emulator has ended then the last that was told is that it stopped. -/
theorem told_of_passed (h : Passed config observers before e) :
    (e.run = .stopped ∨ e.run = .running) ∧
    e.run = lastTold (changes before.events) ∧
    (∀ change ∈ changes before.events,
      change.state = if change.reason = .started then .running else .stopped) ∧
    (∀ earlier first between second later,
      changes before.events = earlier ++ first :: between ++ second :: later →
      first.reason = .started → second.reason = .started →
      ∃ change ∈ between, change.reason = .stopped ∨ change.reason = .stoppedBreakpoint) ∧
    (∀ a : Act,
      (∀ change ∈ changes (a.perform e).2,
        change.state = (a.perform e).1.run ∧ (change.reason = .started → e.run = .stopped)) ∧
      (∀ f, (∃ change ∈ changes (a.perform e).2, change.fault = some f) ↔
        a.Ticks e ∧ e.machine.tick.2 = some f) ∧
      (∀ f, a.Ticks e → e.machine.tick.2 = some f →
        changes (a.perform e).2 = [⟨.stopped, .stopped, e.machine.pc, some f⟩])) ∧
    (e.finished = true →
      (changes before.events).getLast? = some ⟨.stopped, .stopped, e.machine.pc, none⟩) := by
  have hfaithful := faithful_of_passed h
  refine ⟨hfaithful.run, hfaithful.last, hfaithful.states, ?_, ?_, hfaithful.finished⟩
  · intro earlier first between second later hlog hfirst hsecond
    rw [hlog] at hfaithful
    obtain ⟨change, hmem, hreason⟩ := hfaithful.exists_stop_between hfirst hsecond
    exact ⟨change, hmem, stop_of_ne_started hreason⟩
  · intro a
    cases e.tells a with
    | nothing htold _ hticks =>
        rw [htold]
        refine ⟨by simp, ?_, ?_⟩
        · intro f
          constructor
          · rintro ⟨change, hmem, -⟩
            cases hmem
          · rintro ⟨hact, hfault⟩
            rw [hticks hact] at hfault
            cases hfault
        · intro f hact hfault
          rw [hticks hact] at hfault
          cases hfault
    | start htold hrun hidle hticks =>
        rw [htold]
        refine ⟨?_, by simp [hticks], fun f hact => absurd hact hticks⟩
        intro change hmem
        obtain rfl := List.mem_singleton.mp hmem
        exact ⟨hrun.symm, fun _ => hfaithful.run.resolve_right hidle⟩
    | stop change htold hrun hstate hreason hfault hplace =>
        rw [htold]
        refine ⟨?_, ?_, ?_⟩
        · intro change' hmem
          obtain rfl := List.mem_singleton.mp hmem
          exact ⟨hstate.trans hrun.symm, fun hstarted => absurd hstarted hreason⟩
        · intro f
          rw [← hfault f]
          simp
        · intro f hact htick
          have hcarries : change.fault = some f := (hfault f).mpr ⟨hact, htick⟩
          have hchange := hplace (by simp [hcarries])
          rw [hcarries] at hchange
          rw [hchange]

/-- Three steps, of which the last one comes upon what is no instruction, a start and the end. -/
def falling : List Move :=
  [.submit .step, .round, .submit .step, .round, .submit .step, .round, .submit .start, .round,
    .submit .terminate, .round]

theorem told_of_passed_falling :
    ((new ⟨.glyphOne, 1, none⟩ .none).after falling).finished = true ∧
      (changes (record ((new ⟨.glyphOne, 1, none⟩ .none).rounds falling)).events).getLast? =
        some ⟨.stopped, .stopped, ((new ⟨.glyphOne, 1, none⟩ .none).after falling).machine.pc, none⟩ ∧
      changes ((Act.obey .step).perform ((new ⟨.glyphOne, 1, none⟩ .none).after (falling.take 4))).2 =
        [⟨.stopped, .stopped, 0, some (.illegalInstruction 0 0xF090)⟩] := by
  have hend : ((new ⟨.glyphOne, 1, none⟩ .none).after falling).finished = true := by
    decide +kernel
  have hpassed : ∀ moves, Passed ⟨.glyphOne, 1, none⟩ .none
      (record ((new ⟨.glyphOne, 1, none⟩ .none).rounds moves))
      ((new ⟨.glyphOne, 1, none⟩ .none).after moves) := .between
  obtain ⟨-, -, -, -, -, hlast⟩ := told_of_passed (hpassed falling)
  obtain ⟨-, -, -, -, hacts, -⟩ := told_of_passed (hpassed (falling.take 4))
  have hplace : ((new ⟨.glyphOne, 1, none⟩ .none).after (falling.take 4)).machine.pc = 0 := by
    decide +kernel
  refine ⟨hend, hlast hend, ?_⟩
  rw [(hacts (.obey .step)).2.2 (.illegalInstruction 0 0xF090) trivial (by decide +kernel), hplace]

end Emulator

end Chip8
