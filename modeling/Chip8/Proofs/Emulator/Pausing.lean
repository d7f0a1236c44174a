import Chip8.Proofs.Emulator.Waiting

/-! # Pausing

Breakpoints stop a running emulator, and one that is started leaves the breakpoint it stands at.

* **Starts.** `Fresh` is what a history is like when no cycle has been made since the emulator last went
  from not running to running. Exactly then a running emulator skips the next breakpoint
  (`skip_iff_fresh`).
* **Reports.** A stop at a breakpoint is reported by a cycle that is not the first behind a start, at an
  enabled breakpoint, and by nothing else (`reports_iff_pause`, `hit?_eq_none_iff`).
* **Progress.** Between two reports an instruction is executed (`exists_execute_between`).
* **All of it** is `breakpoints_stop_once`. -/

namespace Chip8

/-! ### Enabled breakpoints -/

namespace Breakpoints

variable {bs : Breakpoints} {a : UInt16} {b : Breakpoint}

theorem state_eq_enabled : bs.state b = .enabled ↔ bs.get? b = some true := by
  unfold state
  cases bs.get? b with
  | none => simp
  | some on => cases on <;> simp

/-- The enabled breakpoint at an address is the temporary one if that is enabled. -/
theorem enabledAt_eq (bs : Breakpoints) (a : UInt16) :
    bs.enabledAt a =
      if bs.get? ⟨a, true⟩ = some true then some ⟨a, true⟩
      else if bs.get? ⟨a, false⟩ = some true then some ⟨a, false⟩
      else .none := by
  unfold enabledAt
  simp only [List.find?_cons, List.find?_nil, state_eq_enabled]
  split
  · rename_i htemporary
    rw [if_pos (of_decide_eq_true htemporary)]
  · rename_i htemporary
    rw [if_neg (of_decide_eq_false htemporary)]
    split
    · rename_i hpersistent
      rw [if_pos (of_decide_eq_true hpersistent)]
    · rename_i hpersistent
      rw [if_neg (of_decide_eq_false hpersistent)]

/-- Execution stops at an address: there is an enabled breakpoint, temporary or persistent. -/
def Stops (bs : Breakpoints) (a : UInt16) : Prop := ∃ temporary, bs.get? ⟨a, temporary⟩ = some true

theorem enabledAt_eq_none : bs.enabledAt a = .none ↔ ¬ bs.Stops a := by
  unfold Stops
  rw [enabledAt_eq, Bool.exists_bool]
  split
  · rename_i htemporary
    simp [htemporary]
  · rename_i htemporary
    split
    · rename_i hpersistent
      simp [hpersistent]
    · rename_i hpersistent
      simp [htemporary, hpersistent]

theorem get?_remove (bs : Breakpoints) (a b : Breakpoint) :
    (bs.remove b).get? a = if a = b then .none else bs.get? a := by
  unfold remove get?
  rw [List.find?_filter]
  split
  · rename_i hsame
    subst hsame
    rw [List.find?_eq_none.mpr fun entry _ => by simp]
    rfl
  · rename_i hother
    congr 2
    funext entry
    by_cases hentry : entry.1 = a
    · simp [hentry, hother]
    · simp [hentry]

end Breakpoints

/-- Behind the command execution may go on at another address. -/
def Command.relocates : Command → Bool
  | step | reset | run _ => true
  | _ => false

namespace Emulator

variable {e : Emulator} {past : List Emulator} {b : Breakpoint} {c : Command} {a : UInt16}

/-! ### One step -/

/-- A command that leaves the emulator running changes nothing about the next breakpoint, or starts the
emulator, which then skips the next breakpoint. -/
theorem skip_obeyed (h : (e.obeyed c).run = .running) :
    (e.run = .running ∧ (e.obeyed c).skipBreakpoint = e.skipBreakpoint) ∨
      (e.run ≠ .running ∧ (e.obeyed c).skipBreakpoint = true) := by
  cases c with
  | start =>
      dsimp only [obeyed] at h ⊢
      split at h
      · rename_i hrun
        rw [if_pos hrun]
        exact .inl ⟨hrun, rfl⟩
      · rename_i hrun
        rw [if_neg hrun]
        exact .inr ⟨hrun, rfl⟩
  | step => cases h
  | stop | reset =>
      dsimp only [obeyed] at h
      split at h
      · cases h
      · rename_i hrun
        exact absurd h hrun
  | load address bytes =>
      dsimp only [obeyed] at h ⊢
      split at h
      · exact .inl ⟨h, rfl⟩
      · exact .inl ⟨h, rfl⟩
  | terminate | run task | changeBreakpoints change | keyDown key | keyUp key | pulse
  | setSpeed speed => exact .inl ⟨h, rfl⟩

theorem reason_of_mem_changesOf {change : StateChange} (h : change ∈ e.changesOf c) :
    change.reason ≠ .stoppedBreakpoint := by
  cases c with
  | start | stop | reset =>
      dsimp only [changesOf] at h
      split at h
      · simp_all
      · simp_all
  | step =>
      rw [changesOf, List.mem_singleton] at h
      simp [h]
  | load address bytes | terminate | run task | changeBreakpoints change | keyDown key | keyUp key
  | pulse | setSpeed speed => simp [changesOf] at h

/-! ### Starts -/

/-- The next round makes an emulator run that does not. -/
def Starts (e : Emulator) : Prop := e.run ≠ .running ∧ e.round.1.run = .running

/-- Behind these rounds no cycle has been made since the emulator last went from not running to running. -/
def Fresh (past : List Emulator) : Prop :=
  ∃ older start since, past = older ++ start :: since ∧ start.Starts ∧ ∀ e ∈ since, ¬ e.Cycles

theorem not_cycles_of_starts (h : e.Starts) : ¬ e.Cycles := by
  intro hcycles
  exact h.1 (cycles_iff.mp hcycles).2.1

theorem fresh_append : Fresh (past ++ [e]) ↔ e.Starts ∨ (Fresh past ∧ ¬ e.Cycles) := by
  constructor
  · rintro ⟨older, start, since, hpast, hstarts, hsince⟩
    rcases List.eq_nil_or_concat since with rfl | ⟨since, last, rfl⟩
    · obtain ⟨-, hlast⟩ := List.append_inj' hpast rfl
      obtain rfl := List.singleton_inj.mp hlast
      exact .inl hstarts
    · have hsplit : past ++ [e] = (older ++ start :: since) ++ [last] := by
        rw [hpast, List.concat_eq_append, List.append_assoc, List.cons_append]
      obtain ⟨rfl, hlast⟩ := List.append_inj' hsplit rfl
      obtain rfl := List.singleton_inj.mp hlast
      refine .inr ⟨⟨older, start, since, rfl, hstarts, ?_⟩, hsince e (by simp)⟩
      intro x hx
      exact hsince x (by simp [hx])
  · rintro (hstarts | ⟨⟨older, start, since, rfl, hstarts, hsince⟩, hcycles⟩)
    · exact ⟨past, e, [], rfl, hstarts, by simp⟩
    · refine ⟨older, start, since ++ [e], by simp, hstarts, ?_⟩
      intro x hx
      rcases List.mem_append.mp hx with hx | hx
      · exact hsince x hx
      · obtain rfl := List.mem_singleton.mp hx
        exact hcycles

/-- Three kinds of rounds leave an emulator running: a cycle, which skips no breakpoint afterwards; one
that changes nothing about that; and a start, behind which the next breakpoint is skipped. -/
theorem skip_round (hrun : e.round.1.run = .running) :
    (e.Cycles ∧ e.round.1.skipBreakpoint = false) ∨
      (¬ e.Cycles ∧ e.run = .running ∧ e.round.1.skipBreakpoint = e.skipBreakpoint) ∨
      (e.Starts ∧ e.round.1.skipBreakpoint = true) := by
  cases e.round_cases with
  | rests hdeed hround =>
      have hcycles : ¬ e.Cycles := by simp [Cycles, hdeed]
      rw [hround] at hrun ⊢
      exact .inr (.inl ⟨hcycles, hrun, rfl⟩)
  | obeys c hdeed hsame _ =>
      have hcycles : ¬ e.Cycles := by simp [Cycles, hdeed]
      have hobeyed : (e.ready.obeyed c).run = .running := by rw [← run_of_unmarked hsame, hrun]
      rw [skip_of_unmarked hsame]
      rcases skip_obeyed hobeyed with ⟨hbefore, hskip⟩ | ⟨hidle, hskip⟩
      · exact .inr (.inl ⟨hcycles, hbefore, hskip⟩)
      · exact .inr (.inr ⟨⟨hidle, hrun⟩, hskip⟩)
  | executes hdeed _ hsame _ =>
      rw [skip_of_unmarked hsame]
      exact .inl ⟨.inl hdeed, rfl⟩
  | faults f _ _ hsame _ =>
      rw [run_of_unmarked hsame] at hrun
      cases hrun
  | pauses b _ hsame _ =>
      rw [run_of_unmarked hsame] at hrun
      cases hrun
  | finishes _ hround =>
      rw [hround] at hrun
      cases hrun

/-- **Breakpoints are skipped** by a running emulator exactly while it has made no cycle since its
start. -/
theorem skip_iff_fresh (h : Reached past e) :
    e.run = .running → (e.skipBreakpoint = true ↔ Fresh past) := by
  refine h.induction
    (P := fun past e => e.run = .running → (e.skipBreakpoint = true ↔ Fresh past)) ?new ?round ?between
  case new =>
    intro config observers hrun
    cases hrun
  case between => exact fun past e queue clock _ ih => ih
  case round =>
    intro past e ih hrun
    rw [fresh_append]
    rcases skip_round hrun with ⟨hcycles, hskip⟩ | ⟨hcycles, hbefore, hskip⟩ | ⟨hstarts, hskip⟩
    · have hstarts : ¬ e.Starts := fun hstarts => not_cycles_of_starts hstarts hcycles
      simp [hskip, hstarts, hcycles]
    · have hstarts : ¬ e.Starts := fun hstarts => hstarts.1 hbefore
      simp [hskip, hstarts, hcycles, ih hbefore]
    · simp [hskip, hstarts]

/-! ### Reports -/

/-- The next round reports a stop at the breakpoint with this address. -/
def Reports (e : Emulator) (a : UInt16) : Prop :=
  ∃ change ∈ changes e.round.2, change.reason = .stoppedBreakpoint ∧ change.pc = a

/-- Nothing but a cycle at a breakpoint that it hits reports a stop there. -/
theorem reports_iff_pause : e.Reports a ↔ e.machine.pc = a ∧ ∃ b, e.deed? = some (.pause b) := by
  constructor
  · rintro ⟨change, hmem, hreason, rfl⟩
    cases e.round_cases with
    | rests _ hround =>
        rw [hround] at hmem
        simp at hmem
    | obeys c _ _ htold =>
        rw [htold] at hmem
        exact absurd hreason (reason_of_mem_changesOf hmem)
    | executes _ _ _ htold =>
        rw [htold] at hmem
        simp at hmem
    | faults f _ _ _ htold =>
        rw [htold, List.mem_singleton] at hmem
        simp [hmem] at hreason
    | pauses b hdeed _ htold =>
        rw [htold, List.mem_singleton] at hmem
        subst hmem
        exact ⟨rfl, b, hdeed⟩
    | finishes _ hround =>
        rw [hround, changes_finish, List.mem_append, List.mem_singleton] at hmem
        rcases hmem with hmem | rfl
        · obtain ⟨e', c, hmem⟩ := exists_of_mem_changes_applyAll hmem
          exact absurd hreason (reason_of_mem_changesOf hmem)
        · cases hreason
  · rintro ⟨rfl, b, hdeed⟩
    refine ⟨⟨.stopped, .stoppedBreakpoint, e.machine.pc, none⟩, ?_, rfl, rfl⟩
    rw [changes_round_of_pause hdeed]
    exact List.mem_singleton.mpr rfl

theorem hit?_eq_none_iff :
    e.hit? = none ↔ e.skipBreakpoint = true ∨ ¬ e.breakpoints.Stops e.machine.pc := by
  unfold hit?
  rw [← Breakpoints.enabledAt_eq_none]
  split
  · rename_i hskip
    simp [hskip]
  · rename_i hskip
    simp [hskip]

theorem enabledAt_of_hit (h : e.hit? = some b) : e.breakpoints.enabledAt e.machine.pc = some b := by
  unfold hit? at h
  split at h
  · cases h
  · exact h

theorem exists_pause_iff : (∃ b, e.deed? = some (.pause b)) ↔ e.Cycles ∧ e.hit? ≠ none := by
  simp only [pause_iff, exists_and_left, ne_eq, Option.eq_none_iff_forall_ne_some, not_forall,
    Decidable.not_not]

theorem not_pause (hskip : e.run = .running → e.skipBreakpoint = true) :
    e.deed? ≠ some (.pause b) := by
  intro hpause
  obtain ⟨hcycles, hhit⟩ := pause_iff.mp hpause
  rw [hit?_eq_none_iff.mpr (.inl (hskip (cycles_iff.mp hcycles).2.1))] at hhit
  cases hhit

/-! ### What a stop at a breakpoint changes -/

theorem get?_breakpointsBehind (h : e.breakpoints.enabledAt a = some b) (b' : Breakpoint) :
    (e.breakpointsBehind b).get? b' =
      if b' = ⟨a, true⟩ ∧ e.breakpoints.get? b' = some true then none else e.breakpoints.get? b' := by
  rw [Breakpoints.enabledAt_eq] at h
  unfold breakpointsBehind
  split at h
  · rename_i htemporary
    obtain rfl := Option.some.inj h
    rw [if_pos rfl, Breakpoints.get?_remove]
    by_cases hb : b' = ⟨a, true⟩
    · subst hb
      simp [htemporary]
    · simp [hb]
  · rename_i htemporary
    split at h
    · obtain rfl := Option.some.inj h
      have hother : ¬ (b' = ⟨a, true⟩ ∧ e.breakpoints.get? b' = some true) := by
        rintro ⟨rfl, hon⟩
        exact htemporary hon
      rw [if_neg (by simp), if_neg hother]
    · cases h

/-! ### Progress -/

theorem pc_obeyed (h : c.relocates = false) : (e.obeyed c).machine.pc = e.machine.pc := by
  cases c with
  | step | reset | run task => cases h
  | start | stop =>
      dsimp only [obeyed]
      split
      · rfl
      · rfl
  | keyDown key =>
      show (e.machine.keyDown key).pc = e.machine.pc
      unfold Machine.keyDown Machine.keyPressed
      split
      · rfl
      · rfl
  | keyUp key =>
      show (e.machine.keyUp key).pc = e.machine.pc
      unfold Machine.keyUp Machine.keyReleased
      split
      · rfl
      · rfl
  | load address bytes =>
      dsimp only [obeyed]
      split
      · rename_i machine hload
        obtain ⟨memory, rfl⟩ := Machine.load_eq_ok hload
        rfl
      · rfl
  | terminate | changeBreakpoints change | pulse | setSpeed speed => rfl

/-- A round that obeys no command that relocates execution leaves it where it is, unless it is a cycle
or the last one. -/
theorem pc_round (hcycles : ¬ e.Cycles) (hlive : e.round.1.finished = false)
    (hobey : ∀ c, e.deed? = some (.obey c) → c.relocates = false) :
    e.round.1.machine.pc = e.machine.pc := by
  cases e.round_cases with
  | rests _ hround => rw [hround]
  | obeys c hdeed hsame _ =>
      rw [pc_of_unmarked hsame, pc_obeyed (hobey c hdeed)]
      rfl
  | executes hdeed _ _ _ => exact absurd (.inl hdeed) hcycles
  | faults f hdeed _ _ _ => exact absurd (.inl hdeed) hcycles
  | pauses b hdeed _ _ => exact absurd (.inr ⟨b, hdeed⟩) hcycles
  | finishes _ hround =>
      rw [hround] at hlive
      cases hlive

/-- An emulator that has ended makes no more rounds. -/
theorem finished_after (h : e.finished = true) (moves : List Move) :
    (e.after moves).finished = true := by
  refine history_induction (P := fun _ e => e.finished = true) ?_ ?_ [] h moves
  · intro past e hfin
    rw [round_of_rest (deed?_of_finished hfin)]
    exact hfin
  · exact fun past e queue clock _ hfin => hfin

/-- **Progress.** An emulator that skips the next breakpoint, if it runs, executes an instruction before
it stops at a breakpoint. Unless a command in between relocates execution, that is the instruction it
stands at. -/
theorem exists_execute_of_pause {moves : List Move}
    (hskip : e.run = .running → e.skipBreakpoint = true)
    (hpause : (e.after moves).deed? = some (.pause b)) :
    ∃ older x newer, e.rounds moves = older ++ x :: newer ∧ x.deed? = some .execute ∧
      (∀ y ∈ older, ¬ y.Cycles) ∧
      ((∀ y ∈ older, ∀ c, y.deed? = some (.obey c) → c.relocates = false) →
        x.machine.pc = e.machine.pc) := by
  induction moves generalizing e with
  | nil => exact absurd hpause (not_pause hskip)
  | cons m moves ih =>
      by_cases hm : m = .round
      · subst hm
        -- a cycle can only execute as long as the next breakpoint is skipped, and no other round ends that
        by_cases hdeed : e.deed? = some .execute
        · exact ⟨[], e, _, rfl, hdeed, by simp, fun _ => rfl⟩
        · have hcycles : ¬ e.Cycles := by
            rintro (hexecute | ⟨b, hstop⟩)
            · exact hdeed hexecute
            · exact not_pause hskip hstop
          have hskip' : e.round.1.run = .running → e.round.1.skipBreakpoint = true := by
            intro hrun
            rcases skip_round hrun with ⟨habsurd, -⟩ | ⟨-, hbefore, hsame⟩ | ⟨-, hstarted⟩
            · exact absurd habsurd hcycles
            · rw [hsame, hskip hbefore]
            · exact hstarted
          obtain ⟨older, x, newer, hrounds, hx, holder, hpc⟩ := ih hskip' hpause
          refine ⟨e :: older, x, newer, by rw [rounds_cons_round, hrounds]; rfl, hx, ?_, ?_⟩
          · exact List.forall_mem_cons.mpr ⟨hcycles, holder⟩
          · intro hobey
            have hlive : e.round.1.finished = false := by
              cases hfin : e.round.1.finished with
              | false => rfl
              | true =>
                  have hrest := deed?_of_finished (finished_after hfin moves)
                  rw [after_cons] at hpause
                  exact absurd (hrest.symm.trans hpause) (by simp)
            rw [hpc fun y hy => hobey y (List.mem_cons_of_mem e hy),
              pc_round hcycles hlive (hobey e List.mem_cons_self)]
      · obtain ⟨queue, clock, -, happly⟩ := Move.apply_eq hm e
        rw [after_cons, happly] at hpause
        rw [rounds_cons_of_ne hm, happly]
        exact ih hskip hpause

/-- Between two reports an instruction is executed. -/
theorem exists_execute_between {later : List Move} {a' : UInt16} (h : Reached past e)
    (hreports : e.Reports a) (hlater : (e.round.1.after later).Reports a') :
    ∃ older x newer, e.round.1.rounds later = older ++ x :: newer ∧
      x.deed? = some .execute ∧ x.machine.wait = .none ∧ (∀ y ∈ older, ¬ y.Cycles) ∧
      ((∀ y ∈ older, ∀ c, y.deed? = some (.obey c) → c.relocates = false) →
        x.machine.pc = a) := by
  obtain ⟨rfl, b, hdeed⟩ := reports_iff_pause.mp hreports
  obtain ⟨-, b', hdeed'⟩ := reports_iff_pause.mp hlater
  have hstop := unmarked_round_of_pause hdeed
  have hpc : e.round.1.machine.pc = e.machine.pc := (pc_of_unmarked hstop).trans rfl
  have hidle : e.round.1.run = .running → e.round.1.skipBreakpoint = true := by
    intro hrun
    rw [run_of_unmarked hstop] at hrun
    cases hrun
  obtain ⟨older, x, newer, hrounds, hx, holder, hstands⟩ := exists_execute_of_pause hidle hdeed'
  have hmem : x ∈ e.round.1.rounds later := by
    rw [hrounds]
    exact List.mem_append_right older List.mem_cons_self
  obtain ⟨first, rfl⟩ := exists_after_of_mem_rounds hmem
  obtain ⟨before, hreached⟩ := h.after (.round :: first)
  have hwait : (e.round.1.after first).queue.wait = .none := (cycles_iff.mp (.inl hx)).2.2.2
  refine ⟨older, _, newer, hrounds, hx, ?_, holder, ?_⟩
  · rw [← hwait]
    exact (wait_of_reached hreached).symm
  · intro hobey
    exact (hstands hobey).trans hpc

/-! ### All of it -/

/-- **Breakpoints stop once and let go.** Along any history:

* a stop at a breakpoint with address `a` is reported by the next round exactly if that is a cycle, not
  the first since the emulator last went from not running to running, and there is an enabled
  breakpoint at the address `a` of the next instruction;
* a cycle that executes an instruction where there is an enabled breakpoint is such a first one;
* a cycle that reports a stop has executed nothing, and of the breakpoints it has removed the
  temporary one at that address if that was enabled, and no other;
* before another stop is reported an instruction is executed, which is the one at the breakpoint
  unless a command relocates execution in between. -/
theorem breakpoints_stop_once (h : Reached past e) :
    (∀ a, e.Reports a ↔
      e.Cycles ∧ ¬ Fresh past ∧ e.machine.pc = a ∧ e.breakpoints.Stops a) ∧
    (e.deed? = some .execute → e.breakpoints.Stops e.machine.pc → Fresh past) ∧
    (∀ a, e.Reports a →
      changes e.round.2 = [⟨.stopped, .stoppedBreakpoint, a, none⟩] ∧
      e.round.1.machine.unmarked = e.machine.unmarked ∧
      (∀ b, e.round.1.breakpoints.get? b =
        if b = ⟨a, true⟩ ∧ e.breakpoints.get? b = some true then none else e.breakpoints.get? b) ∧
      (∀ later a', (e.round.1.after later).Reports a' →
        ∃ older x newer, e.round.1.rounds later = older ++ x :: newer ∧
          x.deed? = some .execute ∧ x.machine.wait = .none ∧ (∀ y ∈ older, ¬ y.Cycles) ∧
          ((∀ y ∈ older, ∀ c, y.deed? = some (.obey c) → c.relocates = false) →
            x.machine.pc = a))) := by
  have hskip := skip_iff_fresh h
  refine ⟨?reports, ?executes, ?stops⟩
  case reports =>
    intro a
    rw [reports_iff_pause, exists_pause_iff, ne_eq, hit?_eq_none_iff]
    constructor
    · rintro ⟨rfl, hcycles, hhit⟩
      obtain ⟨hskips, henabled⟩ := not_or.mp hhit
      rw [hskip (cycles_iff.mp hcycles).2.1] at hskips
      exact ⟨hcycles, hskips, rfl, not_not.mp henabled⟩
    · rintro ⟨hcycles, hfresh, rfl, henabled⟩
      rw [← hskip (cycles_iff.mp hcycles).2.1] at hfresh
      exact ⟨rfl, hcycles, not_or.mpr ⟨hfresh, not_not.mpr henabled⟩⟩
  case executes =>
    intro hexecute hstops
    obtain ⟨hcycles, hhit⟩ := execute_iff.mp hexecute
    rw [← hskip (cycles_iff.mp hcycles).2.1]
    exact (hit?_eq_none_iff.mp hhit).resolve_right (not_not.mpr hstops)
  case stops =>
    intro a hreports
    obtain ⟨rfl, b, hdeed⟩ := reports_iff_pause.mp hreports
    have hstop := unmarked_round_of_pause hdeed
    have hbreakpoints : e.round.1.breakpoints = e.breakpointsBehind b := breakpoints_of_unmarked hstop
    refine ⟨changes_round_of_pause hdeed, (machine_of_unmarked hstop).trans rfl, ?_, ?_⟩
    · intro b'
      rw [hbreakpoints, get?_breakpointsBehind (enabledAt_of_hit (pause_iff.mp hdeed).2)]
    · intro later a' hlater
      exact exists_execute_between h hreports hlater

/-- An emulator that was started at one breakpoint, with another one at the address that is called
there. -/
def calling : Emulator :=
  (new ⟨.glyphOne, 1, none⟩ .none).after
    [.submit (.changeBreakpoints (.add ⟨5, false⟩ true)), .round,
      .submit (.changeBreakpoints (.add ⟨16, true⟩ true)), .round, .submit .start, .round]

theorem breakpoints_stop_once_calling : ¬ calling.Reports 5 ∧ calling.round.1.Reports 16 := by
  have hreached : Reached _ calling := ⟨_, _, _, rfl, rfl⟩
  have hdeed : calling.deed? = some .execute := rfl
  have hskip : calling.skipBreakpoint = true := rfl
  have hperiod : calling.queue.period = none := rfl
  have hset : calling.breakpoints.get? ⟨16, true⟩ = some true := rfl
  have htick : calling.machine.tick.2 = none ∧ calling.machine.tick.1.wait = .none ∧
      calling.machine.tick.1.pc = 16 := by decide +kernel
  generalize calling = e at *
  obtain ⟨past, hcalled⟩ := hreached.after [.round]
  obtain ⟨hfin, hrun, hcalm, -⟩ := cycles_iff.mp (.inl hdeed)
  have hsame := unmarked_round_of_success hdeed htick.1
  have hqueue : e.round.1.queue = e.queue.setWait e.machine.tick.1.wait := queue_of_unmarked hsame
  have hbreakpoints : e.round.1.breakpoints = e.breakpoints :=
    (breakpoints_of_unmarked hsame).trans rfl
  have hrun' : e.round.1.run = .running := (run_of_unmarked hsame).trans hrun
  constructor
  · intro hreports
    obtain ⟨-, hfresh, -⟩ := ((breakpoints_stop_once hreached).1 5).mp hreports
    exact hfresh ((skip_iff_fresh hreached hrun).mp hskip)
  · refine ((breakpoints_stop_once hcalled).1 16).mpr
      ⟨cycles_iff.mpr ⟨?_, hrun', ?_, ?_⟩, ?_, ?_, true, ?_⟩
    · exact (finished_of_unmarked hsame).trans hfin
    · show e.round.1.queue.Calm _
      rw [hqueue]
      exact Queue.calm_of_no_period hcalm.pending hcalm.connected hperiod
    · show e.round.1.queue.wait = _
      rw [hqueue]
      exact htick.2.1
    · rw [← skip_iff_fresh hcalled hrun']
      show ¬ e.round.1.skipBreakpoint = true
      rw [skip_of_unmarked hsame]
      exact Bool.false_ne_true
    · exact (pc_of_unmarked hsame).trans htick.2.2
    · show e.round.1.breakpoints.get? _ = _
      rw [hbreakpoints]
      exact hset

end Emulator

end Chip8
