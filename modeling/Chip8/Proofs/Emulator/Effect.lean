import Chip8.Emulator.Run
import Chip8.Proofs.Machine.Handlers

/-! # Effects

What the operations of an emulator leave behind, one equation an operation.

* **Looking on.** Notifications take the picture off the screen and start the count of ticks anew, and
  nothing else depends on that. `Emulator.unmarked` is the emulator without these two, so that an
  equation between unmarked emulators says all that an operation does to the others.
* **State changes.** `changes` are the changes of the run state among the events of an operation.
* **Commands.** `obeyed` is what a command changes (`unmarked_apply`), and `changesOf` are the changes of
  the run state that it makes (`changes_apply`). A proof about commands goes by cases of these. -/

namespace Chip8

variable {e : Emulator} {o : Emulated} {b : Breakpoint} {f : Fault}

/-! ### State changes -/

/-- The change of the run state that an event tells of. -/
def Event.change? : Event → Option StateChange
  | state change => some change
  | _ => none

/-- The changes of the run state that events tell of. -/
def changes (events : List Event) : List StateChange := events.filterMap Event.change?

@[simp] theorem changes_nil : changes [] = [] := rfl

@[simp] theorem changes_append (xs ys : List Event) : changes (xs ++ ys) = changes xs ++ changes ys :=
  List.filterMap_append

@[simp] theorem changes_state (c : StateChange) (events : List Event) :
    changes (.state c :: events) = c :: changes events := rfl

theorem changes_cons_of_none {event : Event} (h : event.change? = none) (events : List Event) :
    changes (event :: events) = changes events :=
  List.filterMap_cons_none h

@[simp] theorem Emulated.fst_andThen (o : Emulated) (g : Emulator → Emulated) :
    (o.andThen g).1 = (g o.1).1 := rfl

@[simp] theorem Emulated.snd_andThen (o : Emulated) (g : Emulator → Emulated) :
    (o.andThen g).2 = o.2 ++ (g o.1).2 := rfl

/-- A binary that is loaded changes the memory only. -/
theorem Machine.load_eq_ok {m n : Machine} {a : UInt16} {bytes : List UInt8}
    (h : m.load a bytes = .ok n) : ∃ memory, n = { m with memory := memory } := by
  unfold Machine.load at h
  cases hload : m.memory.load a bytes with
  | ok memory =>
      rw [hload] at h
      cases h
      exact ⟨memory, rfl⟩
  | error err =>
      rw [hload] at h
      cases h

namespace Emulator

section silent

variable {α : Type} {view : Event → Option α}

/-- Of listeners that fail nothing is told but that. -/
theorem filterMap_failures (h : ∀ callee message, view (.failed callee message) = none) (e : Emulator)
    (callee : Callee) : (e.failures callee).filterMap view = [] := by
  unfold failures
  rw [List.filterMap_filterMap]
  refine List.filterMap_eq_nil_iff.mpr fun failing _ => ?_
  dsimp only
  split
  · exact h _ _
  · rfl

theorem filterMap_trace (h : ∀ line, view (.traced line) = none) (e : Emulator) :
    e.trace.filterMap view = [] := by
  unfold trace
  split
  · rw [List.filterMap_map]
    exact List.filterMap_eq_nil_iff.mpr fun line _ => h line
  · rfl

/-- Of hooks nothing is told but that they were called or failed. -/
theorem filterMap_hooks (hcalled : view .shutdown = none)
    (hfailed : ∀ callee message, view (.failed callee message) = none) (hooks : List Hook) :
    (hooks.map Hook.event).filterMap view = [] := by
  rw [List.filterMap_map]
  refine List.filterMap_eq_nil_iff.mpr fun hook _ => ?_
  cases hook with
  | mk failure =>
      cases failure with
      | none => exact hcalled
      | some message => exact hfailed .shutdownHook message

end silent

@[simp] theorem changes_failures (e : Emulator) (callee : Callee) :
    changes (e.failures callee) = [] :=
  filterMap_failures (fun _ _ => rfl) e callee

@[simp] theorem changes_trace (e : Emulator) : changes e.trace = [] := filterMap_trace (fun _ => rfl) e

/-! ### Notifications -/

/-- The emulator whose picture counts as taken and whose last tick was notified. -/
def unmarked (e : Emulator) : Emulator := { e with machine := e.machine.unmarked, ticksSinceNotify := 0 }

section fields

variable {e' : Emulator} (h : e.unmarked = e'.unmarked)

include h

theorem machine_of_unmarked : e.machine.unmarked = e'.machine.unmarked := congrArg machine h

theorem pc_of_unmarked : e.machine.pc = e'.machine.pc := by
  show e.unmarked.machine.pc = e'.unmarked.machine.pc
  rw [h]

theorem wait_of_unmarked : e.machine.wait = e'.machine.wait := by
  show e.unmarked.machine.wait = e'.unmarked.machine.wait
  rw [h]

theorem run_of_unmarked : e.run = e'.run := by
  show e.unmarked.run = e'.unmarked.run
  rw [h]

theorem queue_of_unmarked : e.queue = e'.queue := by
  show e.unmarked.queue = e'.unmarked.queue
  rw [h]

theorem breakpoints_of_unmarked : e.breakpoints = e'.breakpoints := by
  show e.unmarked.breakpoints = e'.unmarked.breakpoints
  rw [h]

theorem skip_of_unmarked : e.skipBreakpoint = e'.skipBreakpoint := by
  show e.unmarked.skipBreakpoint = e'.unmarked.skipBreakpoint
  rw [h]

theorem finished_of_unmarked : e.finished = e'.finished := by
  show e.unmarked.finished = e'.unmarked.finished
  rw [h]

theorem program_of_unmarked : e.program = e'.program := by
  show e.unmarked.program = e'.unmarked.program
  rw [h]

theorem hooks_of_unmarked : e.hooks = e'.hooks := by
  show e.unmarked.hooks = e'.unmarked.hooks
  rw [h]

end fields

theorem unmarked_present (e : Emulator) : e.present.1.unmarked = e.unmarked := by
  unfold present
  split
  · rfl
  · rfl

theorem changes_present (e : Emulator) : changes e.present.2 = [] := by
  unfold present
  split
  · exact (changes_cons_of_none rfl _).trans (changes_failures _ _)
  · rfl

@[simp] theorem unmarked_notifyTick (e : Emulator) : e.notifyTick.1.unmarked = e.unmarked :=
  unmarked_present { e with ticksSinceNotify := 0 }

@[simp] theorem changes_notifyTick (e : Emulator) : changes e.notifyTick.2 = [] := by
  unfold notifyTick
  rw [Emulated.snd_andThen, changes_append, changes_present, changes_cons_of_none rfl,
    changes_failures]
  rfl

@[simp] theorem fst_notifyState (e : Emulator) (reason : Reason) (fault : Option Fault) :
    (e.notifyState reason fault).1 = e := rfl

@[simp] theorem changes_notifyState (e : Emulator) (reason : Reason) (fault : Option Fault) :
    changes (e.notifyState reason fault).2 = [⟨e.run, reason, e.machine.pc, fault⟩] := by
  show changes (.changed _ :: .state _ :: e.failures .stateListener) = _
  rw [changes_cons_of_none rfl, changes_state, changes_failures]

@[simp] theorem changes_notifyBreakpoints (e : Emulator) : changes e.notifyBreakpoints.2 = [] :=
  (changes_cons_of_none rfl _).trans (changes_failures _ _)

/-! ### Halting -/

@[simp] theorem unmarked_halt (e : Emulator) (reason : Reason) (fault : Option Fault) :
    (e.halt reason fault).1.unmarked = { e with run := .stopped }.unmarked :=
  unmarked_notifyTick { e with run := .stopped }

@[simp] theorem changes_halt (e : Emulator) (reason : Reason) (fault : Option Fault) :
    changes (e.halt reason fault).2 = [⟨.stopped, reason, e.machine.pc, fault⟩] := by
  have hnotify := unmarked_notifyTick { e with run := .stopped }
  unfold halt
  rw [Emulated.snd_andThen, changes_append, changes_notifyTick, changes_notifyState,
    run_of_unmarked hnotify, pc_of_unmarked hnotify]
  rfl

@[simp] theorem unmarked_haltAt (e : Emulator) (f : Fault) :
    (e.haltAt f).1.unmarked = { e with run := .stopped }.unmarked :=
  unmarked_halt e .stopped (some f)

@[simp] theorem changes_haltAt (e : Emulator) (f : Fault) :
    changes (e.haltAt f).2 = [⟨.stopped, .stopped, e.machine.pc, some f⟩] :=
  (changes_cons_of_none rfl _).trans (changes_halt e .stopped (some f))

/-! ### Cycles -/

/-- The breakpoint that the next cycle stops at. -/
def hit? (e : Emulator) : Option Breakpoint :=
  if e.skipBreakpoint then none else e.breakpoints.enabledAt e.machine.pc

theorem cycle_of_hit (h : e.hit? = some b) :
    e.cycle = { e with skipBreakpoint := false }.pauseAt b := by
  unfold hit? at h
  unfold cycle
  dsimp only
  rw [h]

theorem cycle_of_no_hit (h : e.hit? = none) :
    e.cycle = { e with skipBreakpoint := false }.executeNext := by
  unfold hit? at h
  unfold cycle
  dsimp only
  rw [h]

/-- The breakpoints behind a stop at one of them. -/
def breakpointsBehind (e : Emulator) (b : Breakpoint) : Breakpoints :=
  if b.temporary then e.breakpoints.remove b else e.breakpoints

theorem unmarked_pauseAt (e : Emulator) (b : Breakpoint) :
    (e.pauseAt b).1.unmarked =
      { e with breakpoints := e.breakpointsBehind b, run := .stopped }.unmarked := by
  unfold pauseAt breakpointsBehind
  split
  · exact unmarked_halt _ .stoppedBreakpoint none
  · exact unmarked_halt _ .stoppedBreakpoint none

theorem changes_pauseAt (e : Emulator) (b : Breakpoint) :
    changes (e.pauseAt b).2 = [⟨.stopped, .stoppedBreakpoint, e.machine.pc, none⟩] := by
  unfold pauseAt
  dsimp only
  split
  · rw [Emulated.snd_andThen, changes_append, changes_notifyBreakpoints, changes_cons_of_none rfl]
    exact changes_halt _ _ _
  · rw [Emulated.snd_andThen, changes_append, changes_cons_of_none rfl]
    exact changes_halt _ _ _

theorem unmarked_countTick (e : Emulator) : e.countTick.1.unmarked = e.unmarked := by
  unfold countTick
  dsimp only
  split
  · exact unmarked_notifyTick { e with ticksSinceNotify := e.ticksSinceNotify + 1 }
  · rfl

theorem changes_countTick (e : Emulator) : changes e.countTick.2 = [] := by
  unfold countTick
  dsimp only
  split
  · exact changes_notifyTick _
  · rfl

/-- The emulator behind an instruction that succeeded. -/
def executed (e : Emulator) : Emulator :=
  { e with
    machine := e.machine.tick.1
    queue := e.queue.setWait e.machine.tick.1.wait
    clock := e.clock + e.throttle.tickTime }

theorem executeNext_of_success (h : e.machine.tick.2 = none) :
    e.executeNext =
      ({ e with machine := e.machine.tick.1 }.syncWait.countTick.1.delay,
        e.trace ++ { e with machine := e.machine.tick.1 }.syncWait.countTick.2) := by
  unfold executeNext tick
  dsimp only
  rw [h]

theorem executeNext_of_fault (h : e.machine.tick.2 = some f) :
    e.executeNext = ((e.haltAt f).1, e.trace ++ (e.haltAt f).2) := by
  have hsame : e.machine.tick.1 = e.machine := congrArg Prod.fst (Machine.tick_eq_of_fault h)
  unfold executeNext tick
  dsimp only
  rw [h, hsame]

theorem unmarked_executeNext_of_success (h : e.machine.tick.2 = none) :
    e.executeNext.1.unmarked = e.executed.unmarked := by
  have hcount := unmarked_countTick { e with machine := e.machine.tick.1 }.syncWait
  rw [executeNext_of_success h]
  exact congrArg delay hcount

theorem changes_executeNext_of_success (h : e.machine.tick.2 = none) :
    changes e.executeNext.2 = [] := by
  rw [executeNext_of_success h, changes_append, changes_trace, changes_countTick]
  rfl

theorem unmarked_executeNext_of_fault (h : e.machine.tick.2 = some f) :
    e.executeNext.1.unmarked = { e with run := .stopped }.unmarked := by
  rw [executeNext_of_fault h]
  exact unmarked_haltAt e f

theorem changes_executeNext_of_fault (h : e.machine.tick.2 = some f) :
    changes e.executeNext.2 = [⟨.stopped, .stopped, e.machine.pc, some f⟩] := by
  rw [executeNext_of_fault h, changes_append, changes_trace, changes_haltAt]
  rfl

/-! ### Commands -/

/-- The machine with the program loaded again, if there is one and it fits. -/
def reloaded (e : Emulator) : Machine :=
  match e.program with
  | none => e.machine
  | some (address, bytes) =>
      match e.machine.load address bytes with
      | .ok machine => machine
      | .error _ => e.machine

/-- A machine whose program is loaded again is as it was, or a binary was loaded into it. -/
theorem reloaded_cases (e : Emulator) :
    e.reloaded = e.machine ∨ ∃ address bytes, e.machine.load address bytes = .ok e.reloaded := by
  unfold reloaded
  split
  · exact .inl rfl
  · split
    · rename_i hload
      exact .inr ⟨_, _, hload⟩
    · exact .inl rfl

theorem fst_reload (e : Emulator) : e.reload.1 = { e with machine := e.reloaded } := by
  unfold reload
  split
  · rename_i hprogram
    have hmachine : e.reloaded = e.machine := by simp only [reloaded, hprogram]
    rw [hmachine]
  · rename_i address bytes hprogram
    split
    · rename_i machine hload
      have hmachine : e.reloaded = machine := by simp only [reloaded, hprogram, hload]
      rw [hmachine]
    · rename_i err hload
      have hmachine : e.reloaded = e.machine := by simp only [reloaded, hprogram, hload]
      rw [hmachine]

theorem changes_reload (e : Emulator) : changes e.reload.2 = [] := by
  unfold reload
  cases e.program with
  | none => rfl
  | some program =>
      dsimp only
      cases e.machine.load program.1 program.2 with
      | ok machine => rfl
      | error err => rfl

/-- What a command changes. -/
def obeyed (e : Emulator) : Command → Emulator
  | .start =>
      if e.run = .running then e
      else { e with run := .running, skipBreakpoint := true }.syncWait
  | .stop => if e.run = .running then { e with run := .stopped } else e
  | .step => { e with machine := e.machine.tick.1, run := .stopped }.syncWait
  | .reset =>
      { e with
        run := if e.run = .running then .stopped else e.run
        breakpoints := e.breakpoints.clearTemporary
        machine := { e with machine := e.machine.reset }.reloaded
        queue := e.queue.setWait .none }
  | .terminate => e
  | .run task => { e with machine := (task e.machine).1 }.syncWait
  | .changeBreakpoints change => { e with breakpoints := change.apply e.breakpoints }
  | .keyDown key => { e with machine := e.machine.keyDown key }.syncWait
  | .keyUp key => { e with machine := e.machine.keyUp key }.syncWait
  | .pulse => { e with machine := e.machine.pulse }.syncWait
  | .setSpeed speed => { e with throttle := Throttle.ofSpeed speed }
  | .load address bytes =>
      match e.machine.load address bytes with
      | .ok machine => { e with machine := machine, program := some (address, bytes) }
      | .error _ => e

/-- The changes of the run state that a command makes. -/
def changesOf (e : Emulator) : Command → List StateChange
  | .start => if e.run = .running then [] else [⟨.running, .started, e.machine.pc, none⟩]
  | .stop => if e.run = .running then [⟨.stopped, .stopped, e.machine.pc, none⟩] else []
  | .step => [⟨.stopped, .stopped, e.machine.tick.1.pc, e.machine.tick.2⟩]
  | .reset => if e.run = .running then [⟨.stopped, .stopped, e.machine.pc, none⟩] else []
  | _ => []

theorem unmarked_step (e : Emulator) : e.step.1.unmarked = (e.obeyed .step).unmarked := by
  unfold step tick
  dsimp only
  split
  · exact unmarked_haltAt _ _
  · exact unmarked_halt _ .stopped none

theorem changes_step (e : Emulator) : changes e.step.2 = e.changesOf .step := by
  have htraced : changes { e with run := .stepping }.trace = [] := changes_trace _
  unfold step tick
  dsimp only
  rw [changes_append, htraced, List.nil_append]
  split
  · rename_i f hfault
    rw [changes_haltAt, ← hfault]
    rfl
  · rename_i hdone
    rw [changes_halt, ← hdone]
    rfl

theorem fst_dropTemporary (e : Emulator) :
    e.dropTemporary.1 = { e with breakpoints := e.breakpoints.clearTemporary } := by
  unfold dropTemporary
  dsimp only
  split
  · rfl
  · rfl

theorem changes_dropTemporary (e : Emulator) : changes e.dropTemporary.2 = [] := by
  unfold dropTemporary
  dsimp only
  split
  · exact changes_notifyBreakpoints _
  · rfl

theorem unmarked_reset (e : Emulator) : e.reset.1.unmarked = (e.obeyed .reset).unmarked := by
  unfold reset obeyed
  by_cases hrun : e.run = .running
  · simp only [if_pos hrun, Emulated.fst_andThen, fst_notifyState, fst_dropTemporary, fst_reload,
      unmarked_notifyTick]
    rfl
  · simp only [if_neg hrun, Emulated.fst_andThen, fst_dropTemporary, fst_reload,
      unmarked_notifyTick]
    rfl

theorem changes_reset (e : Emulator) : changes e.reset.2 = e.changesOf .reset := by
  have hnotice : ∀ events, changes (.wasReset :: events) = changes events := changes_cons_of_none rfl
  unfold reset changesOf
  simp only [Emulated.snd_andThen, changes_append, changes_dropTemporary, changes_reload, hnotice,
    changes_notifyTick, List.append_nil]
  split
  · exact changes_notifyState _ .stopped none
  · rfl

/-- **Commands** change what `obeyed` says. -/
theorem unmarked_apply (e : Emulator) (c : Command) :
    (e.apply c).1.unmarked = (e.obeyed c).unmarked := by
  cases c with
  | start =>
      show e.start.1.unmarked = _
      unfold start obeyed
      dsimp only
      split
      · rfl
      · rfl
  | stop =>
      unfold apply obeyed
      dsimp only
      split
      · exact unmarked_halt e .stopped none
      · rfl
  | step => exact unmarked_step e
  | reset => exact unmarked_reset e
  | load address bytes =>
      show (e.load address bytes).1.unmarked = _
      unfold load obeyed
      dsimp only
      cases e.machine.load address bytes with
      | ok machine => rfl
      | error err => rfl
  | terminate | run task | changeBreakpoints change | keyDown key | keyUp key | pulse | setSpeed speed =>
      rfl

/-- **Commands** make the changes of the run state that `changesOf` says. -/
theorem changes_apply (e : Emulator) (c : Command) : changes (e.apply c).2 = e.changesOf c := by
  cases c with
  | start =>
      show changes e.start.2 = _
      unfold start changesOf
      dsimp only
      split
      · rfl
      · exact changes_notifyState _ .started none
  | stop =>
      unfold apply changesOf
      dsimp only
      split
      · exact changes_halt e .stopped none
      · rfl
  | step => exact changes_step e
  | reset => exact changes_reset e
  | run task =>
      show changes (e.runTask task).2 = []
      unfold runTask
      dsimp only
      split
      · rfl
      · rfl
  | load address bytes =>
      show changes (e.load address bytes).2 = []
      unfold load
      cases e.machine.load address bytes with
      | ok machine => rfl
      | error err => rfl
  | changeBreakpoints change => exact changes_notifyBreakpoints _
  | terminate | keyDown key | keyUp key | pulse | setSpeed speed => rfl

/-! ### The end -/

/-- What comes of obeying all that is left in the queue. -/
def drained (e : Emulator) : Emulated :=
  { e with queue := { e.queue with pending := [] } }.applyAll e.queue.pending

/-- Hooks tell of no change of the run state. -/
theorem changes_hooks (hooks : List Hook) : changes (hooks.map Hook.event) = [] :=
  filterMap_hooks rfl (fun _ _ => rfl) hooks

/-- Whoever leaves tells that it has stopped. -/
theorem changes_leave (e : Emulator) :
    changes e.leave.2 = [⟨.stopped, .stopped, e.machine.pc, none⟩] := by
  have hend : changes [Event.terminated] = [] := rfl
  unfold leave
  simp only [Emulated.snd_andThen, changes_append, changes_notifyState, changes_hooks, hend,
    List.append_nil]

/-- At the end an emulator tells that it has stopped, behind all that the commands left tell. -/
theorem changes_finish (e : Emulator) :
    changes e.finish.2 =
      changes e.drained.2 ++ [⟨.stopped, .stopped, e.drained.1.machine.pc, none⟩] := by
  have hfinish : e.finish = e.drained.andThen leave := rfl
  rw [hfinish, Emulated.snd_andThen, changes_append, changes_leave]

/-- What every command keeps is kept by all of them. -/
theorem applyAll_induction {P : Emulator → Prop} (hstep : ∀ e c, P e → P (e.apply c).1)
    (h : P e) (cs : List Command) : P (e.applyAll cs).1 := by
  induction cs generalizing e with
  | nil => exact h
  | cons c cs ih => exact ih (hstep e c h)

/-- Every change of the run state that commands make is made by one of them. -/
theorem exists_of_mem_changes_applyAll {change : StateChange} {cs : List Command}
    (h : change ∈ changes (e.applyAll cs).2) : ∃ e' : Emulator, ∃ c, change ∈ e'.changesOf c := by
  induction cs generalizing e with
  | nil => simp [applyAll] at h
  | cons c cs ih =>
      rw [applyAll, Emulated.snd_andThen, changes_append, changes_apply, List.mem_append] at h
      cases h with
      | inl hhead => exact ⟨e, c, hhead⟩
      | inr htail => exact ih htail

end Emulator

end Chip8
