import Chip8.Proofs.Emulator.Acts

/-! # Showing

The display shows what is on the screen whenever execution stops.

* **Frames.** `shown` is the last frame that the display got. `Shows` is the invariant: a screen that is
  not dirty is what was shown last. It is kept by whatever tells frames of the screen only and marks
  every change, operation by operation.
* **Flushes.** Whoever notifies of a tick has the screen shown (`flushed_notifyTick`), and whatever stops
  execution does so (`flushed_perform`).
* **All of it** is `display_never_stale`. -/

namespace Chip8

/-- The frame that an event brings to the display. -/
def Event.frame? : Event → Option Frame
  | frame f => some f
  | _ => none

/-- The frames among some events. -/
def frames (events : List Event) : List Frame := events.filterMap Event.frame?

/-- The frame that is shown behind some events, given the one shown in front of them. -/
def shown (earlier : Option Frame) (events : List Event) : Option Frame :=
  (frames events).getLast?.or earlier

/-- An act brings execution to a stop, or is a step or a reset, behind which it is stopped in any case. -/
def Act.Halts (e : Emulator) (a : Act) : Prop :=
  a ≠ .leave ∧ (e.run = .running ∧ (a.perform e).1.run = .stopped ∨ a = .obey .step ∨ a = .obey .reset)

/-- The tasks of a record leave the screen alone. -/
def Record.SparesScreen (r : Record) : Prop :=
  ∀ x task, (x, Act.obey (.run task)) ∈ r → (task x.machine).1.screen = x.machine.screen

section shown

variable {earlier : Option Frame} {events : List Event}

theorem frames_append (xs ys : List Event) : frames (xs ++ ys) = frames xs ++ frames ys :=
  List.filterMap_append

theorem shown_append (earlier : Option Frame) (xs ys : List Event) :
    shown earlier (xs ++ ys) = shown (shown earlier xs) ys := by
  unfold shown
  rw [frames_append, List.getLast?_append, Option.or_assoc]

theorem shown_of_no_frames (h : frames events = []) (earlier : Option Frame) :
    shown earlier events = earlier := by
  unfold shown
  rw [h]
  rfl

theorem shown_cons_of_none {event : Event} (h : event.frame? = none) (earlier : Option Frame)
    (events : List Event) : shown earlier (event :: events) = shown earlier events := by
  unfold shown frames
  rw [List.filterMap_cons_none h]

theorem shown_none (events : List Event) : shown none events = (frames events).getLast? :=
  Option.or_none

end shown

namespace Emulator

variable {e x : Emulator} {a : Act} {b : Breakpoint} {c : Command} {f : Fault}
  {config : EmulatorConfig} {observers : Observers} {before : Record} {earlier : Option Frame}
  {events : List Event}

/-- There is a display, and unless the screen is dirty its picture was shown last. -/
def Shows (earlier : Option Frame) (e : Emulator) : Prop :=
  e.observers.display = true ∧
    (e.machine.screen.dirty = false → earlier = some e.machine.screen.frame)

/-- There is a display, and the picture on the screen was shown last. -/
def Flushed (earlier : Option Frame) (e : Emulator) : Prop :=
  e.observers.display = true ∧ e.machine.screen.dirty = false ∧
    earlier = some e.machine.screen.frame

theorem shows_of_dirty (hdisplay : e.observers.display = true) (hdirty : e.machine.screen.dirty = true)
    (earlier : Option Frame) : Shows earlier e :=
  ⟨hdisplay, fun hclean => by rw [hdirty] at hclean; cases hclean⟩

/-- What tells no frame and leaves the screen alone leaves what is shown alone. -/
theorem Shows.of_quiet (h : Shows earlier e) (hframes : frames events = [])
    (hobservers : x.observers = e.observers) (hscreen : x.machine.screen = e.machine.screen) :
    Shows (shown earlier events) x := by
  rw [shown_of_no_frames hframes]
  unfold Shows
  rw [hobservers, hscreen]
  exact h

theorem Flushed.shows (h : Flushed earlier e) : Shows earlier e := ⟨h.1, fun _ => h.2.2⟩

/-! ### Notifications -/

theorem frames_failures (e : Emulator) (callee : Callee) : frames (e.failures callee) = [] :=
  filterMap_failures (fun _ _ => rfl) e callee

theorem frames_trace (e : Emulator) : frames e.trace = [] := filterMap_trace (fun _ => rfl) e

theorem frames_notifyState (e : Emulator) (reason : Reason) (fault : Option Fault) :
    frames (e.notifyState reason fault).2 = [] :=
  frames_failures e .stateListener

theorem frames_notifyBreakpoints (e : Emulator) : frames e.notifyBreakpoints.2 = [] :=
  frames_failures e .breakpointListener

/-- Whoever presents has the screen shown. -/
theorem flushed_present (h : Shows earlier e) : Flushed (shown earlier e.present.2) e.present.1 := by
  obtain ⟨hdisplay, hclean⟩ := h
  unfold present
  cases hdirty : e.machine.screen.dirty with
  | false =>
      rw [if_neg (by simp)]
      exact ⟨hdisplay, hdirty, hclean hdirty⟩
  | true =>
      rw [if_pos ⟨hdisplay, rfl⟩]
      have hframes : frames (.frame e.machine.screen.frame :: e.failures .displaySink) =
          [e.machine.screen.frame] := congrArg (e.machine.screen.frame :: ·) (frames_failures e .displaySink)
      refine ⟨hdisplay, rfl, ?_⟩
      show shown earlier (.frame e.machine.screen.frame :: e.failures .displaySink) = _
      unfold shown
      rw [hframes]
      rfl

theorem flushed_notifyTick (h : Shows earlier e) :
    Flushed (shown earlier e.notifyTick.2) e.notifyTick.1 := by
  have hpresent : Flushed (shown earlier { e with ticksSinceNotify := 0 }.present.2)
      { e with ticksSinceNotify := 0 }.present.1 := flushed_present h
  unfold notifyTick
  rw [Emulated.snd_andThen, shown_append, shown_of_no_frames]
  · exact hpresent
  · exact frames_failures _ .tickListener

theorem flushed_halt (h : Shows earlier e) (reason : Reason) (fault : Option Fault) :
    Flushed (shown earlier (e.halt reason fault).2) (e.halt reason fault).1 := by
  have hnotify : Flushed (shown earlier { e with run := .stopped }.notifyTick.2)
      { e with run := .stopped }.notifyTick.1 := flushed_notifyTick h
  unfold halt
  rw [Emulated.snd_andThen, shown_append, shown_of_no_frames (frames_notifyState _ reason fault)]
  exact hnotify

theorem flushed_haltAt (h : Shows earlier e) (f : Fault) :
    Flushed (shown earlier (e.haltAt f).2) (e.haltAt f).1 :=
  flushed_halt h .stopped (some f)

/-! ### Cycles -/

theorem flushed_pauseAt (h : Shows earlier e) (b : Breakpoint) :
    Flushed (shown earlier (e.pauseAt b).2) (e.pauseAt b).1 := by
  unfold pauseAt
  dsimp only
  split
  · have hremoved : Shows earlier { e with breakpoints := e.breakpoints.remove b } := h
    rw [Emulated.snd_andThen, shown_append, shown_of_no_frames (frames_notifyBreakpoints _),
      shown_cons_of_none rfl]
    exact flushed_halt hremoved .stoppedBreakpoint none
  · show Flushed (shown earlier (.reached _ :: (e.halt .stoppedBreakpoint none).2)) _
    rw [shown_cons_of_none rfl]
    exact flushed_halt h .stoppedBreakpoint none

theorem shows_countTick (h : Shows earlier e) : Shows (shown earlier e.countTick.2) e.countTick.1 := by
  have hcounted : Shows earlier { e with ticksSinceNotify := e.ticksSinceNotify + 1 } := h
  unfold countTick
  dsimp only
  split
  · exact (flushed_notifyTick hcounted).shows
  · exact hcounted

/-- An instruction that changes the picture marks it. -/
theorem shows_tick (h : Shows earlier e) : Shows earlier { e with machine := e.machine.tick.1 } := by
  rcases e.machine.screen_tick with hsame | hdirty
  · exact h.of_quiet (rfl : frames [] = []) rfl hsame
  · exact shows_of_dirty (e := { e with machine := e.machine.tick.1 }) h.1 hdirty earlier

theorem shows_executeNext_of_success (h : Shows earlier e) (hdone : e.machine.tick.2 = none) :
    Shows (shown earlier e.executeNext.2) e.executeNext.1 := by
  have hexecuted : Shows earlier { e with machine := e.machine.tick.1 }.syncWait := shows_tick h
  rw [executeNext_of_success hdone, shown_append, shown_of_no_frames (frames_trace e)]
  exact shows_countTick hexecuted

theorem flushed_executeNext_of_fault (h : Shows earlier e) (hfault : e.machine.tick.2 = some f) :
    Flushed (shown earlier e.executeNext.2) e.executeNext.1 := by
  rw [executeNext_of_fault hfault, shown_append, shown_of_no_frames (frames_trace e)]
  exact flushed_haltAt h f

/-! ### Commands -/

theorem flushed_step (h : Shows earlier e) : Flushed (shown earlier e.step.2) e.step.1 := by
  have htrace : frames { e with run := .stepping }.trace = [] := frames_trace _
  have hexecuted : Shows earlier { e with machine := e.machine.tick.1, run := .stepping }.syncWait :=
    shows_tick h
  unfold step tick
  dsimp only
  rw [shown_append, shown_of_no_frames htrace]
  split
  · exact flushed_haltAt hexecuted _
  · exact flushed_halt hexecuted .stopped none

theorem screen_reloaded (e : Emulator) : e.reloaded.screen = e.machine.screen := by
  rcases e.reloaded_cases with hsame | ⟨address, bytes, hload⟩
  · rw [hsame]
  · obtain ⟨memory, hmemory⟩ := Machine.load_eq_ok hload
    rw [hmemory]

/-- A reset has the screen blank and shown, whatever was shown before. -/
theorem flushed_reset (h : Shows earlier e) : Flushed (shown earlier e.reset.2) e.reset.1 := by
  unfold reset
  dsimp only
  rw [Emulated.snd_andThen, shown_append, shown_cons_of_none rfl]
  -- what is shown up to the last notification does not matter, since the screen is dirty there
  refine flushed_notifyTick (shows_of_dirty ?_ ?_ _)
  · simp only [Emulated.fst_andThen, fst_dropTemporary, fst_reload]
    split
    · exact h.1
    · exact h.1
  · simp only [Emulated.fst_andThen, fst_dropTemporary, fst_reload, screen_reloaded]
    rfl

/-- **A command** keeps what is shown up to date, unless it is a task that draws. -/
theorem shows_apply (h : Shows earlier e)
    (htask : ∀ task, c = .run task → (task e.machine).1.screen = e.machine.screen) :
    Shows (shown earlier (e.apply c).2) (e.apply c).1 := by
  cases c with
  | start =>
      show Shows (shown earlier e.start.2) e.start.1
      unfold start
      split
      · exact h
      · exact h.of_quiet (frames_notifyState _ .started none) rfl rfl
  | stop =>
      dsimp only [apply]
      split
      · exact (flushed_halt h .stopped none).shows
      · exact h
  | step => exact (flushed_step h).shows
  | reset => exact (flushed_reset h).shows
  | run task =>
      have hframes : frames (e.runTask task).2 = [] := by
        unfold runTask
        dsimp only
        split
        · rfl
        · rfl
      exact h.of_quiet hframes rfl (htask task rfl)
  | changeBreakpoints change => exact h.of_quiet (frames_notifyBreakpoints _) rfl rfl
  | keyDown key =>
      have hscreen : (e.machine.keyDown key).screen = e.machine.screen := by
        unfold Machine.keyDown Machine.keyPressed
        split
        · rfl
        · rfl
      exact h.of_quiet rfl rfl hscreen
  | keyUp key =>
      have hscreen : (e.machine.keyUp key).screen = e.machine.screen := by
        unfold Machine.keyUp Machine.keyReleased
        split
        · rfl
        · rfl
      exact h.of_quiet rfl rfl hscreen
  | load address bytes =>
      show Shows (shown earlier (e.load address bytes).2) (e.load address bytes).1
      unfold load
      cases hload : e.machine.load address bytes with
      | ok machine =>
          obtain ⟨memory, rfl⟩ := Machine.load_eq_ok hload
          exact h.of_quiet rfl rfl rfl
      | error err => exact h.of_quiet rfl rfl rfl
  | terminate | pulse | setSpeed speed => exact h.of_quiet rfl rfl rfl

/-! ### Acts -/

theorem shows_cycle (h : Shows earlier e) : Shows (shown earlier e.cycle.2) e.cycle.1 := by
  have hwatchful : Shows earlier { e with skipBreakpoint := false } := h
  cases hhit : e.hit? with
  | some b =>
      rw [cycle_of_hit hhit]
      exact (flushed_pauseAt hwatchful b).shows
  | none =>
      rw [cycle_of_no_hit hhit]
      cases htick : e.machine.tick.2 with
      | none => exact shows_executeNext_of_success hwatchful htick
      | some f => exact (flushed_executeNext_of_fault hwatchful htick).shows

/-- Whoever leaves tells no frame. -/
theorem shows_leave (h : Shows earlier e) : Shows (shown earlier e.leave.2) e.leave.1 := by
  have hhooks : frames (e.hooks.map Hook.event) = [] := filterMap_hooks rfl (fun _ _ => rfl) e.hooks
  have hstate : frames ({ e with run := .stopped }.notifyState .stopped none).2 = [] :=
    frames_notifyState _ .stopped none
  refine h.of_quiet ?_ rfl rfl
  unfold leave
  rw [Emulated.snd_andThen, frames_append, frames_append, hstate]
  exact congrArg (· ++ frames [.terminated]) hhooks

/-- **An act** keeps what is shown up to date, unless it is a task that draws. -/
theorem shows_perform (h : Shows earlier x)
    (htask : ∀ task, a = .obey (.run task) → (task x.machine).1.screen = x.machine.screen) :
    Shows (shown earlier (a.perform x).2) (a.perform x).1 := by
  cases a with
  | obey c => exact shows_apply h fun task hc => htask task (congrArg Act.obey hc)
  | cycle => exact shows_cycle h
  | leave => exact shows_leave h

/-- A command that stops execution is one of three. -/
theorem halting_command (hrun : e.run = .running) (hstopped : (e.apply c).1.run = .stopped) :
    c = .stop ∨ c = .step ∨ c = .reset := by
  rw [run_of_unmarked (unmarked_apply e c)] at hstopped
  cases c with
  | stop => exact .inl rfl
  | step => exact .inr (.inl rfl)
  | reset => exact .inr (.inr rfl)
  | start => simp [obeyed, hrun] at hstopped
  | load address bytes =>
      dsimp only [obeyed] at hstopped
      split at hstopped
      · cases hrun.symm.trans hstopped
      · cases hrun.symm.trans hstopped
  | terminate | run task | changeBreakpoints change | keyDown key | keyUp key | pulse
  | setSpeed speed => cases hrun.symm.trans hstopped

/-- **Whatever stops execution** has the screen shown. -/
theorem flushed_perform (h : Shows earlier x) (hhalts : a.Halts x) :
    Flushed (shown earlier (a.perform x).2) (a.perform x).1 := by
  obtain ⟨hstays, ⟨hrun, hstopped⟩ | rfl | rfl⟩ := hhalts
  case inr.inl => exact flushed_step h
  case inr.inr => exact flushed_reset h
  cases a with
  | leave => exact absurd rfl hstays
  | obey c =>
      rcases halting_command hrun hstopped with rfl | rfl | rfl
      · show Flushed (shown earlier (x.apply .stop).2) (x.apply .stop).1
        dsimp only [apply]
        rw [if_pos hrun]
        exact flushed_halt h .stopped none
      · exact flushed_step h
      · exact flushed_reset h
  | cycle =>
      have hwatchful : Shows earlier { x with skipBreakpoint := false } := h
      show Flushed (shown earlier x.cycle.2) x.cycle.1
      cases x.act_cases .cycle with
      | pauses b hhit _ _ =>
          rw [cycle_of_hit hhit]
          exact flushed_pauseAt hwatchful b
      | faults f hhit hfault _ _ =>
          rw [cycle_of_no_hit hhit]
          exact flushed_executeNext_of_fault hwatchful hfault
      | executes _ _ hsame _ =>
          have hgoes : x.cycle.1.run = x.run := (run_of_unmarked hsame).trans rfl
          exact absurd (hgoes.symm.trans hstopped) (by simp [hrun])

/-! ### All of it -/

/-- **Wherever a history stands** what was shown last is on the screen, unless that is dirty. -/
theorem shows_of_passed (hdisplay : observers.display = true) (h : Passed config observers before e) :
    before.SparesScreen → Shows (frames before.events).getLast? e := by
  refine h.induction (P := fun before e => before.SparesScreen → Shows (frames before.events).getLast? e)
    ?new ?act ?between
  case new => exact fun _ => shows_of_dirty hdisplay rfl _
  case act =>
    intro before x a _ ih htasks
    have hshows := ih fun y task hmem => htasks y task (List.mem_append_left _ hmem)
    rw [Record.events_append, Record.events_singleton, ← shown_none, shown_append, shown_none]
    refine shows_perform hshows ?_
    rintro task rfl
    exact htasks x task (by simp)
  case between => exact fun _ _ _ _ _ ih => ih

/-- **The display is never stale** when execution stops. Wherever a history stands in which tasks have left
the screen alone:

* if the screen is not dirty then a frame was shown, and the last one is the picture on the screen;
* whatever stops execution next, a breakpoint, a fault, a stop, a step or a reset, leaves a screen that is
  not dirty, and the picture on it is the last one shown. -/
theorem display_never_stale (hdisplay : observers.display = true) (h : Passed config observers before e)
    (htasks : before.SparesScreen) :
    (e.machine.screen.dirty = false →
      (frames before.events).getLast? = some e.machine.screen.frame) ∧
    ∀ a : Act, a.Halts e →
      (a.perform e).1.machine.screen.dirty = false ∧
      (frames (Record.events (before ++ [(e, a)]))).getLast? =
        some (a.perform e).1.machine.screen.frame := by
  have hshows := shows_of_passed hdisplay h htasks
  refine ⟨hshows.2, ?_⟩
  intro a hhalts
  obtain ⟨-, hclean, hframe⟩ := flushed_perform hshows hhalts
  rw [Record.events_append, Record.events_singleton, ← shown_none, shown_append, shown_none]
  exact ⟨hclean, hframe⟩

/-- The program at the address the glyph calls draws one row of that glyph; the first step calls it. -/
def drawing : List Move :=
  [.submit (.load 16 [0xD0, 0x01]), .round, .submit .step, .round]

set_option maxRecDepth 4000 in
theorem display_never_stale_drawing :
    ((new ⟨.glyphOne, 1, none⟩ ⟨true, false, []⟩).after drawing).machine.screen.frame.lit = 0 ∧
      (frames (record ((new ⟨.glyphOne, 1, none⟩ ⟨true, false, []⟩).rounds drawing)).events).getLast? =
        some ((new ⟨.glyphOne, 1, none⟩ ⟨true, false, []⟩).after drawing).machine.screen.frame ∧
      (frames (Record.events (record ((new ⟨.glyphOne, 1, none⟩ ⟨true, false, []⟩).rounds drawing) ++
        [((new ⟨.glyphOne, 1, none⟩ ⟨true, false, []⟩).after drawing, .obey .step)]))).getLast? =
        some ⟨8, 1, #[true, true, true, true, false, false, false, false]⟩ := by
  have hpassed : Passed ⟨.glyphOne, 1, none⟩ ⟨true, false, []⟩
      (record ((new ⟨.glyphOne, 1, none⟩ ⟨true, false, []⟩).rounds drawing))
      ((new ⟨.glyphOne, 1, none⟩ ⟨true, false, []⟩).after drawing) := .between drawing
  have htasks : (record ((new ⟨.glyphOne, 1, none⟩ ⟨true, false, []⟩).rounds drawing)).SparesScreen := by
    have hacts : (record ((new ⟨.glyphOne, 1, none⟩ ⟨true, false, []⟩).rounds drawing)).map Prod.snd =
        [.obey (.load 16 [0xD0, 0x01]), .obey .step] := rfl
    intro x task hmem
    have hact := List.mem_map_of_mem (f := Prod.snd) hmem
    rw [hacts] at hact
    simp at hact
  obtain ⟨hclean, hstops⟩ := display_never_stale rfl hpassed htasks
  have hdrawn : ((Act.obey .step).perform
      ((new ⟨.glyphOne, 1, none⟩ ⟨true, false, []⟩).after drawing)).1.machine.screen.frame =
        ⟨8, 1, #[true, true, true, true, false, false, false, false]⟩ := by decide +kernel
  refine ⟨by decide +kernel, hclean (by decide +kernel), ?_⟩
  rw [(hstops (.obey .step) ⟨by simp, .inr (.inl rfl)⟩).2, hdrawn]

end Emulator

end Chip8
