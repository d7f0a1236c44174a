import Chip8.Proofs.Emulator.Round

/-! # Acts

What an emulator does, one thing at a time.

* **Acts.** An emulator obeys a command, makes a cycle or takes its leave. A round is one of these, or
  at the end the commands that are left and the leave (`outcome_eq_performAll`). `act_cases` is all that
  an act can do.
* **Records.** The `record` of a history is the list of its acts, each with the emulator in front of it.
* **Passing.** An emulator that is `Passed` stands between two acts of a history, and the record until
  there is known. What holds of a new emulator and is kept by every act and by all that happens
  between rounds holds of every emulator that is passed (`Passed.induction`). -/

namespace Chip8

/-- Something that an emulator does. -/
inductive Act where
  | obey (c : Command)
  | cycle
  /-- Tell that it has stopped, call the hooks and end. -/
  | leave

/-- What comes of an act. -/
def Act.perform (e : Emulator) : Act → Emulated
  | obey c => e.apply c
  | cycle => e.cycle
  | leave => e.leave

/-- Acts in their order, each with the emulator in front of it. -/
abbrev Record := List (Emulator × Act)

/-- All that a record tells. -/
def Record.events (r : Record) : List Event := r.flatMap fun p => (p.2.perform p.1).2

@[simp] theorem Record.events_append (r s : Record) : (r ++ s).events = r.events ++ s.events :=
  List.flatMap_append

@[simp] theorem Record.events_singleton (e : Emulator) (a : Act) :
    Record.events [(e, a)] = (a.perform e).2 :=
  List.flatMap_singleton ..

namespace Emulator

variable {e x : Emulator} {a : Act} {b : Breakpoint} {c : Command} {d : Deed} {f : Fault}
  {config : EmulatorConfig} {observers : Observers} {before : Record}

/-! ### What an act does -/

/-- All that an act can do. -/
inductive ActCases (x : Emulator) : Act → Prop where
  | obeys (c : Command) (hsame : (x.apply c).1.unmarked = (x.obeyed c).unmarked)
      (htold : changes (x.apply c).2 = x.changesOf c) : ActCases x (.obey c)
  | pauses (b : Breakpoint) (hhit : x.hit? = some b)
      (hsame : x.cycle.1.unmarked =
        { x.watchful with breakpoints := x.breakpointsBehind b, run := .stopped }.unmarked)
      (htold : changes x.cycle.2 = [⟨.stopped, .stoppedBreakpoint, x.machine.pc, none⟩]) :
      ActCases x .cycle
  | executes (hhit : x.hit? = none) (hdone : x.machine.tick.2 = none)
      (hsame : x.cycle.1.unmarked = x.watchful.executed.unmarked) (htold : changes x.cycle.2 = []) :
      ActCases x .cycle
  | faults (f : Fault) (hhit : x.hit? = none) (hfault : x.machine.tick.2 = some f)
      (hsame : x.cycle.1.unmarked = { x.watchful with run := .stopped }.unmarked)
      (htold : changes x.cycle.2 = [⟨.stopped, .stopped, x.machine.pc, some f⟩]) : ActCases x .cycle
  | leaves (hsame : x.leave.1 =
        { x with run := .stopped, finished := true, queue := x.queue.abandon, hooks := [] })
      (htold : changes x.leave.2 = [⟨.stopped, .stopped, x.machine.pc, none⟩]) : ActCases x .leave

/-- **Every act** is one of these; a proof about acts goes by these cases. -/
theorem act_cases (x : Emulator) (a : Act) : x.ActCases a := by
  cases a with
  | obey c => exact .obeys c (unmarked_apply x c) (changes_apply x c)
  | leave => exact .leaves rfl (changes_leave x)
  | cycle =>
      cases hhit : x.hit? with
      | some b =>
          have hcycle : x.cycle = x.watchful.pauseAt b := cycle_of_hit hhit
          refine .pauses b hhit ?_ ?_
          · rw [hcycle]
            exact unmarked_pauseAt x.watchful b
          · rw [hcycle]
            exact changes_pauseAt x.watchful b
      | none =>
          have hcycle : x.cycle = x.watchful.executeNext := cycle_of_no_hit hhit
          cases htick : x.machine.tick.2 with
          | none =>
              refine .executes hhit htick ?_ ?_
              · rw [hcycle]
                exact unmarked_executeNext_of_success htick
              · rw [hcycle]
                exact changes_executeNext_of_success htick
          | some f =>
              refine .faults f hhit htick ?_ ?_
              · rw [hcycle]
                exact unmarked_executeNext_of_fault htick
              · rw [hcycle]
                exact changes_executeNext_of_fault htick

/-- Only the leave ends an emulator. -/
theorem finished_perform (h : a ≠ .leave) : (a.perform x).1.finished = x.finished := by
  cases x.act_cases a with
  | obeys c hsame _ => exact (finished_of_unmarked hsame).trans (finished_obeyed x c)
  | pauses b _ hsame _ => exact (finished_of_unmarked hsame).trans rfl
  | executes _ _ hsame _ => exact (finished_of_unmarked hsame).trans rfl
  | faults f _ _ hsame _ => exact (finished_of_unmarked hsame).trans rfl
  | leaves _ _ => exact absurd rfl h

/-! ### The acts of a round -/

/-- Perform acts one after the other. -/
def performAll (e : Emulator) : List Act → Emulated
  | [] => (e, [])
  | a :: as => (a.perform e).andThen fun e => e.performAll as

/-- Acts that are performed one after the other, each with the emulator in front of it. -/
def trail (e : Emulator) : List Act → Record
  | [] => []
  | a :: as => (e, a) :: (a.perform e).1.trail as

/-- The acts of a deed. -/
def actsOf (e : Emulator) : Deed → List Act
  | .obey c => [.obey c]
  | .execute => [.cycle]
  | .pause _ => [.cycle]
  | .finish => e.ready.queue.pending.map .obey ++ [.leave]

/-- The emulator in front of the acts of a deed. Whoever finishes has taken all commands off the queue. -/
def poised (e : Emulator) : Deed → Emulator
  | .finish => { e.ready with queue := { e.ready.queue with pending := [] } }
  | _ => e.ready

/-- The acts of the next round, each with the emulator in front of it. -/
def acted (e : Emulator) : Record :=
  match e.deed? with
  | some d => (e.poised d).trail (e.actsOf d)
  | none => []

theorem performAll_singleton (e : Emulator) (a : Act) : e.performAll [a] = a.perform e := by
  show ((a.perform e).1, (a.perform e).2 ++ []) = a.perform e
  rw [List.append_nil]

theorem performAll_append (e : Emulator) (as bs : List Act) :
    e.performAll (as ++ bs) = (e.performAll as).andThen fun e => e.performAll bs := by
  induction as generalizing e with
  | nil => rfl
  | cons a as ih =>
      rw [List.cons_append, performAll, performAll]
      simp only [Emulated.andThen, ih, List.append_assoc]

theorem performAll_obey (e : Emulator) (cs : List Command) :
    e.performAll (cs.map .obey) = e.applyAll cs := by
  induction cs generalizing e with
  | nil => rfl
  | cons c cs ih =>
      rw [List.map_cons, performAll, applyAll]
      simp only [ih]
      rfl

theorem events_trail (e : Emulator) (as : List Act) :
    (e.trail as).events = (e.performAll as).2 := by
  induction as generalizing e with
  | nil => rfl
  | cons a as ih =>
      show (a.perform e).2 ++ ((a.perform e).1.trail as).events = _
      rw [ih]
      rfl

/-- **A deed** is its acts, one after the other. -/
theorem outcome_eq_performAll (h : e.deed? = some d) :
    e.outcome d = (e.poised d).performAll (e.actsOf d) := by
  cases d with
  | obey c => exact (performAll_singleton e.ready (.obey c)).symm
  | execute =>
      obtain ⟨hcycles, hhit⟩ := execute_iff.mp h
      have hcycle : e.ready.cycle = e.ready.watchful.executeNext := by
        rw [ready_of_cycles hcycles]
        exact cycle_of_no_hit hhit
      exact hcycle.symm.trans (performAll_singleton e.ready .cycle).symm
  | pause b =>
      obtain ⟨hcycles, hhit⟩ := pause_iff.mp h
      have hcycle : e.ready.cycle = e.ready.watchful.pauseAt b := by
        rw [ready_of_cycles hcycles]
        exact cycle_of_hit hhit
      exact hcycle.symm.trans (performAll_singleton e.ready .cycle).symm
  | finish =>
      show e.ready.finish = (e.poised .finish).performAll _
      rw [actsOf, performAll_append, performAll_obey]
      simp only [performAll_singleton]
      rfl

/-- A round leads where its acts lead. -/
theorem fst_round_of_deed (h : e.deed? = some d) :
    e.round.1 = ((e.poised d).performAll (e.actsOf d)).1 := by
  rw [round_of_deed h, outcome_eq_performAll h]

/-- A round tells what its acts tell. -/
theorem events_acted (e : Emulator) : e.acted.events = e.round.2 := by
  unfold acted
  cases hdeed : e.deed? with
  | none => rw [round_of_rest hdeed]
            rfl
  | some d => rw [round_of_deed hdeed, outcome_eq_performAll hdeed, events_trail]

theorem exists_actsOf (e : Emulator) (d : Deed) :
    ∃ (cs : List Command) (a : Act), e.actsOf d = cs.map .obey ++ [a] := by
  cases d with
  | obey c => exact ⟨[], .obey c, rfl⟩
  | execute => exact ⟨[], .cycle, rfl⟩
  | pause b => exact ⟨[], .cycle, rfl⟩
  | finish => exact ⟨e.ready.queue.pending, .leave, rfl⟩

/-- No act of a trail is made by an emulator that has ended, since a leave can only be the last. -/
theorem live_of_mem_trail {cs : List Command} {p : Emulator × Act} (hlive : e.finished = false)
    (h : p ∈ e.trail (cs.map .obey ++ [a])) : p.1.finished = false := by
  induction cs generalizing e with
  | nil =>
      obtain rfl := List.mem_singleton.mp h
      exact hlive
  | cons c cs ih =>
      rcases List.mem_cons.mp h with rfl | h
      · exact hlive
      · refine ih ?_ h
        exact (finished_perform (by simp)).trans hlive

theorem live_of_deed (h : e.deed? = some d) : e.finished = false := by
  cases hfin : e.finished with
  | false => rfl
  | true => simp [deed?_of_finished hfin] at h

/-! ### Records -/

/-- The acts of some rounds, given the emulators in front of these, each with the emulator in front of
it. -/
def record (past : List Emulator) : Record := past.flatMap acted

@[simp] theorem record_append (past past' : List Emulator) :
    record (past ++ past') = record past ++ record past' :=
  List.flatMap_append

@[simp] theorem record_singleton (e : Emulator) : record [e] = e.acted :=
  List.flatMap_singleton ..

/-- A record tells what the rounds tell. -/
theorem events_record (past : List Emulator) :
    (record past).events = past.flatMap fun e => e.round.2 := by
  induction past with
  | nil => rfl
  | cons e past ih =>
      show (e.acted ++ record past).events = _
      rw [Record.events_append, events_acted, ih]
      rfl

/-! ### Passing -/

/-- An emulator that is there between two acts of a history, and the record until then. -/
inductive Passed (config : EmulatorConfig) (observers : Observers) : Record → Emulator → Prop where
  | between (moves : List Move) :
      Passed config observers (record ((new config observers).rounds moves))
        ((new config observers).after moves)
  | within (moves : List Move) {before later : Record} {x : Emulator} {a : Act}
      (h : record ((new config observers).rounds moves) = before ++ (x, a) :: later) :
      Passed config observers before x

section induction

variable {P : Record → Emulator → Prop}

/-- What acts keep holds at every place of a trail and behind it. -/
theorem along_trail
    (hact : ∀ before x a, x.finished = false → P before x → P (before ++ [(x, a)]) (a.perform x).1)
    {as : List Act} (hlive : ∀ p ∈ e.trail as, p.1.finished = false) (h : P before e) :
    P (before ++ e.trail as) (e.performAll as).1 ∧
      ∀ earlier x a later, e.trail as = earlier ++ (x, a) :: later → P (before ++ earlier) x := by
  induction as generalizing e before with
  | nil =>
      refine ⟨by rwa [trail, List.append_nil], ?_⟩
      intro earlier x a later hsplit
      simp [trail] at hsplit
  | cons a as ih =>
      have hhead : e.finished = false := hlive (e, a) List.mem_cons_self
      obtain ⟨hend, hplaces⟩ := ih (fun p hp => hlive p (List.mem_cons_of_mem _ hp))
        (hact before e a hhead h)
      rw [List.append_assoc] at hend
      refine ⟨hend, ?_⟩
      intro earlier x a' later hsplit
      cases earlier with
      | nil =>
          obtain ⟨rfl, -⟩ := Prod.mk.inj (List.cons.inj hsplit).1
          rwa [List.append_nil]
      | cons p earlier =>
          obtain ⟨rfl, hrest⟩ := List.cons.inj hsplit
          have hplace := hplaces earlier x a' later hrest
          rwa [List.append_assoc] at hplace

/-- What acts keep, and the look at the queue as well, holds at every place of a round and behind it. -/
theorem along_round
    (hact : ∀ before x a, x.finished = false → P before x → P (before ++ [(x, a)]) (a.perform x).1)
    (hbetween : ∀ before x queue clock, queue.wait = x.queue.wait → P before x →
      P before { x with queue := queue, clock := clock })
    (h : P before e) :
    P (before ++ e.acted) e.round.1 ∧
      ∀ earlier x a later, e.acted = earlier ++ (x, a) :: later → P (before ++ earlier) x := by
  unfold acted
  cases hdeed : e.deed? with
  | none =>
      rw [round_of_rest hdeed]
      refine ⟨by rwa [List.append_nil], ?_⟩
      intro earlier x a later hsplit
      simp at hsplit
  | some d =>
      have hready : P before e.ready := hbetween before e _ _ (wait_ready e) h
      have hpoised : P before (e.poised d) := by
        cases d with
        | obey c | execute | pause b => exact hready
        | finish =>
            exact hbetween before e.ready { e.ready.queue with pending := [] } _ rfl hready
      have hlive : e.finished = false := live_of_deed hdeed
      have hlive' : (e.poised d).finished = false := by
        cases d with
        | obey c | execute | pause b | finish => exact hlive
      obtain ⟨cs, a, hacts⟩ := exists_actsOf e d
      rw [fst_round_of_deed hdeed]
      refine along_trail hact ?_ hpoised
      rw [hacts]
      exact fun p hp => live_of_mem_trail hlive' hp

/-- **What acts keep** holds of every emulator that is passed, if it holds of a new one and if whatever
happens between rounds keeps it as well. -/
theorem Passed.induction (hnew : P [] (new config observers))
    (hact : ∀ before x a, x.finished = false → P before x → P (before ++ [(x, a)]) (a.perform x).1)
    (hbetween : ∀ before x queue clock, queue.wait = x.queue.wait → P before x →
      P before { x with queue := queue, clock := clock })
    (h : Passed config observers before e) : P before e := by
  have hhistory : ∀ moves, P (record ((new config observers).rounds moves))
        ((new config observers).after moves) ∧
      ∀ earlier x a later, record ((new config observers).rounds moves) =
        earlier ++ (x, a) :: later → P earlier x := by
    intro moves
    refine history_induction (P := fun past e => P (record past) e ∧
      ∀ earlier x a later, record past = earlier ++ (x, a) :: later → P earlier x)
      ?round ?between [] ⟨hnew, ?new⟩ moves
    case new =>
      intro earlier x a later hsplit
      simp [record] at hsplit
    case between =>
      rintro past e queue clock hwait ⟨hend, hplaces⟩
      exact ⟨hbetween _ e queue clock hwait hend, hplaces⟩
    case round =>
      rintro past e ⟨hend, hplaces⟩
      obtain ⟨hend', hplaces'⟩ := along_round hact hbetween hend
      rw [record_append, record_singleton]
      refine ⟨hend', ?_⟩
      -- an act of the history is one of the rounds before or one of this round
      intro earlier x a later hsplit
      rcases List.append_eq_append_iff.mp hsplit with ⟨more, rfl, hlast⟩ | ⟨more, hpast, hlast⟩
      · exact hplaces' more x a later hlast
      · cases more with
        | nil =>
            have hplace := hplaces' [] x a later hlast.symm
            rwa [hpast, List.append_nil, List.append_nil] at hplace
        | cons p more =>
            obtain ⟨rfl, -⟩ := List.cons.inj hlast
            exact hplaces earlier x a more hpast
  cases h with
  | between moves => exact (hhistory moves).1
  | within moves hsplit => exact (hhistory moves).2 before e _ _ hsplit

end induction

end Emulator

end Chip8
