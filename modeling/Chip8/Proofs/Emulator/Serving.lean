import Chip8.Proofs.Emulator.Acts
import Mathlib.Data.List.Induction
import Mathlib.Data.List.TakeWhile

/-! # Serving

The commands that a caller submits are obeyed in their order, each once, up to the first `terminate`.

* **Occasions.** What happens to an emulator, hooks that are registered included. A caller who has gone
  away submits nothing more (`Orderly`).
* **Rounds.** A round takes the next command off the queue and obeys it, and goes on without one only if
  there is none (`served_of_not_finish`). Pulses that come by themselves were not submitted and do not
  count.
* **Histories.** `InOrder` is the invariant: what was obeyed and what is left in the queue are together
  what was accepted.
* **All of it** is `served_in_order`. -/

namespace Chip8

/-- The command that an act obeys. -/
def Act.command? : Act → Option Command
  | obey c => some c
  | cycle | leave => none

/-- The commands that are obeyed in a record, in their order. -/
def Record.commands (r : Record) : List Command := r.filterMap fun p => p.2.command?

/-- The commands in front of the first `terminate`. -/
def toObey (cs : List Command) : List Command := cs.takeWhile fun c => !c.isTerminate

/-- Whether there is a `terminate` among some commands. -/
def ends (cs : List Command) : Bool := cs.any Command.isTerminate

/-- The commands that are accepted of those that are submitted. -/
def accepted (cs : List Command) : List Command := toObey cs ++ if ends cs then [.terminate] else []

/-! ### Commands in their order -/

section commands

variable {cs done left rest : List Command} {c : Command}

theorem Command.isTerminate_iff : c.isTerminate = true ↔ c = .terminate := by
  cases c with
  | terminate => simp [isTerminate]
  | start | stop | step | reset | run task | changeBreakpoints change | keyDown key | keyUp key
  | pulse | setSpeed speed | load address bytes => simp [isTerminate]

theorem toObey_of_not_ends (h : ends cs = false) : toObey cs = cs := by
  refine List.takeWhile_eq_self_iff.mpr fun c hc => ?_
  have hall := List.any_eq_false.mp h c hc
  simpa using hall

theorem accepted_of_not_ends (h : ends cs = false) : accepted cs = cs := by
  unfold accepted
  rw [h, toObey_of_not_ends h]
  exact List.append_nil cs

/-- Behind a `terminate` there is nothing more to obey. -/
theorem toObey_append_of_ends (h : ends cs = true) (left : List Command) :
    toObey (cs ++ left) = toObey cs := by
  induction cs with
  | nil => cases h
  | cons c cs ih =>
      unfold toObey at ih ⊢
      rw [List.cons_append, List.takeWhile_cons, List.takeWhile_cons]
      cases hc : c.isTerminate with
      | true => rfl
      | false =>
          have hrest : ends cs = true := by simpa [ends, hc] using h
          simp only [Bool.not_false, if_true, ih hrest]

theorem ends_append_singleton (cs : List Command) (c : Command) :
    ends (cs ++ [c]) = (ends cs || c.isTerminate) := by
  simp [ends]

theorem accepted_append_of_ends (h : ends cs = true) (c : Command) :
    accepted (cs ++ [c]) = accepted cs := by
  unfold accepted
  rw [toObey_append_of_ends h, ends_append_singleton, h]
  rfl

/-- Whatever comes before a `terminate` is accepted, and so is the `terminate`. -/
theorem accepted_append_of_not_ends (h : ends cs = false) (c : Command) :
    accepted (cs ++ [c]) = cs ++ [c] := by
  cases hc : c.isTerminate with
  | false =>
      refine accepted_of_not_ends ?_
      rw [ends_append_singleton, h, hc]
      rfl
  | true =>
      obtain rfl := Command.isTerminate_iff.mp hc
      have hall : ∀ c ∈ cs, (!c.isTerminate) = true :=
        List.takeWhile_eq_self_iff.mp (toObey_of_not_ends h)
      unfold accepted toObey
      rw [ends_append_singleton, hc, Bool.or_true, List.takeWhile_append_of_pos hall]
      simp [Command.isTerminate]

theorem toObey_accepted (cs : List Command) : toObey (accepted cs) = toObey cs := by
  cases h : ends cs with
  | false => rw [accepted_of_not_ends h]
  | true =>
      have hall : ∀ c ∈ toObey cs, (!c.isTerminate) = true := fun _ => List.mem_takeWhile_imp
      unfold accepted
      rw [h, toObey, List.takeWhile_append_of_pos hall]
      simp [Command.isTerminate]

/-- Once there is nothing left to obey all has been obeyed that is to be obeyed. -/
theorem eq_toObey (hdone : ∀ c ∈ done, c.isTerminate = false) (h : done ++ left = accepted cs)
    (hleft : ∀ c ∈ left.head?, c.isTerminate = true) : done = toObey cs ∧ left.tail = [] := by
  have hobey : toObey left = [] := by
    cases left with
    | nil => rfl
    | cons c left =>
        unfold toObey
        rw [List.takeWhile_cons, hleft c rfl]
        rfl
  -- both sides end at the first `terminate`, and in front of it there is only what was obeyed
  have heq : done = toObey cs := by
    rw [← toObey_accepted, ← h, toObey, List.takeWhile_append_of_pos fun c hc => by simp [hdone c hc]]
    exact (List.append_nil done).symm.trans (congrArg (done ++ ·) hobey.symm)
  refine ⟨heq, ?_⟩
  unfold accepted at h
  rw [heq] at h
  rw [List.append_cancel_left h]
  cases ends cs with
  | true => rfl
  | false => rfl

end commands

/-! ### The queue -/

namespace Queue

/-- What an empty queue hands out. -/
structure Spent (q : Queue) (next : Polled) : Prop where
  /-- Only a pulse comes by itself. -/
  pulse : ∀ c, next = .command c → c = .pulse
  disconnected : next = .disconnected ↔ q.connected = false

theorem spent_poll {q : Queue} (h : q.pending = []) (now : Nat) : q.Spent (q.poll now).1 := by
  cases hconnected : q.connected with
  | false => exact ⟨by simp [poll, h, hconnected], by simp [poll, h, hconnected]⟩
  | true =>
      unfold poll
      rw [h]
      simp only [hconnected, if_true]
      repeat' split
      all_goals exact ⟨by simp, by simp [hconnected]⟩

theorem spent_take {q : Queue} (h : q.pending = []) (now : Nat) : q.Spent (q.take now).1 := by
  cases hconnected : q.connected with
  | false => exact ⟨by simp [take, h, hconnected], by simp [take, h, hconnected]⟩
  | true => exact ⟨by simp [take, h, hconnected], by simp [take, h, hconnected]⟩

end Queue

namespace Emulator

variable {e x : Emulator} {a : Act} {c : Command} {d : Deed} {config : EmulatorConfig}
  {observers : Observers} {done rest : List Command}

/-! ### Rounds -/

theorem spent_polled (h : e.queue.pending = []) : e.queue.Spent e.polled.1 := by
  by_cases hrun : e.run = .running
  · rw [polled_of_running hrun]
    exact Queue.spent_poll h e.clock
  · rw [polled_of_not_running hrun]
    exact Queue.spent_take h e.clock

/-- Without a pending command a round obeys only a pulse that came by itself. -/
theorem eq_pulse_of_obey (h : e.queue.pending = []) (hdeed : e.deed? = some (.obey c)) : c = .pulse := by
  have hlive := live_of_deed hdeed
  have hspent := spent_polled h
  unfold deed? at hdeed
  simp only [hlive, Bool.false_eq_true, if_false] at hdeed
  split at hdeed
  · rename_i c' hpolled
    obtain rfl := hspent.pulse c' hpolled
    cases hdeed
    rfl
  · split at hdeed
    · cases hdeed
    · cases hdeed
  · cases hdeed
  · cases hdeed

/-- Without a pending command an emulator ends exactly if nobody can submit one. -/
theorem finish_iff_of_empty (hlive : e.finished = false) (h : e.queue.pending = []) :
    e.deed? = some .finish ↔ e.queue.connected = false := by
  have hspent := spent_polled h
  rw [← hspent.disconnected]
  unfold deed?
  cases hpolled : e.polled.1 with
  | command c =>
      obtain rfl := hspent.pulse c hpolled
      simp [hlive, Command.isTerminate]
  | resume =>
      cases e.hit? with
      | none => simp [hlive]
      | some b => simp [hlive]
  | disconnected => simp [hlive]
  | blocked => simp [hlive]

/-- The commands of a caller that a round obeys. A pulse that came by itself is none of them. -/
def served (e : Emulator) : List Command := if e.queue.pending.isEmpty then [] else e.acted.commands

theorem commands_trail (e : Emulator) (as : List Act) :
    (e.trail as).commands = as.filterMap Act.command? := by
  induction as generalizing e with
  | nil => rfl
  | cons a as ih =>
      have htail := ih (a.perform e).1
      unfold Record.commands at htail ⊢
      rw [trail, List.filterMap_cons, List.filterMap_cons, htail]

theorem served_of_empty (h : e.queue.pending = []) : e.served = [] := by
  unfold served
  rw [h]
  rfl

theorem served_of_rest (h : e.deed? = none) : e.served = [] := by
  unfold served acted
  rw [h]
  exact ite_self _

theorem served_of_deed (h : e.deed? = some d) (hpending : e.queue.pending ≠ []) :
    e.served = (e.actsOf d).filterMap Act.command? := by
  have hacted : e.acted = (e.poised d).trail (e.actsOf d) := by
    unfold acted
    rw [h]
  unfold served
  rw [hacted, commands_trail]
  simp [hpending]

/-- **A round** that does not end the emulator obeys the next command in the queue. -/
theorem served_of_not_finish (hlive : e.finished = false) (h : e.deed? ≠ some .finish) :
    e.served = e.queue.pending.take 1 := by
  cases hpending : e.queue.pending with
  | nil => rw [served_of_empty hpending, List.take_nil]
  | cons c rest =>
      have hdeed := deed?_of_pending hlive hpending
      cases hc : c.isTerminate with
      | true =>
          rw [hc] at hdeed
          exact absurd hdeed h
      | false =>
          rw [hc] at hdeed
          rw [served_of_deed hdeed (by simp [hpending])]
          rfl

theorem isTerminate_of_served (hlive : e.finished = false) (h : e.deed? ≠ some .finish)
    (hc : c ∈ e.served) : c.isTerminate = false := by
  rw [served_of_not_finish hlive h] at hc
  cases hpending : e.queue.pending with
  | nil => simp [hpending] at hc
  | cons c' rest =>
      obtain rfl : c = c' := by simpa [hpending] using hc
      cases hend : c.isTerminate with
      | false => rfl
      | true =>
          refine absurd (deed?_of_pending hlive hpending) ?_
          rw [hend]
          exact h

/-- The last round obeys what is behind the `terminate` as well. -/
theorem served_of_finish (h : e.deed? = some .finish) : e.served = e.queue.pending.tail := by
  cases hpending : e.queue.pending with
  | nil => rw [served_of_empty hpending, List.tail_nil]
  | cons c rest =>
      obtain ⟨next, clock, hready⟩ := ready_eq e
      have hleft : e.ready.queue.pending = e.queue.pending.tail := by rw [hready]
      have hobeyed : (e.ready.queue.pending.map Act.obey).filterMap Act.command? =
          e.ready.queue.pending := by
        rw [List.filterMap_map]
        exact List.filterMap_some
      rw [served_of_deed h (by simp [hpending]), actsOf, List.filterMap_append, hobeyed, hleft, hpending]
      exact List.append_nil _

/-! ### What is left -/

/-- Only the leave does more to the queue than to tell it what is awaited, or anything to the hooks. -/
theorem queue_perform (h : a ≠ .leave) :
    (∃ wait, (a.perform x).1.queue = x.queue.setWait wait) ∧ (a.perform x).1.hooks = x.hooks := by
  cases x.act_cases a with
  | obeys c hsame _ =>
      obtain ⟨⟨wait, hqueue⟩, hhooks, -⟩ := x.obeyed_spares c
      exact ⟨⟨wait, (queue_of_unmarked hsame).trans hqueue⟩, (hooks_of_unmarked hsame).trans hhooks⟩
  | pauses b _ hsame _ =>
      exact ⟨⟨x.queue.wait, (queue_of_unmarked hsame).trans rfl⟩, (hooks_of_unmarked hsame).trans rfl⟩
  | executes _ _ hsame _ =>
      exact ⟨⟨_, (queue_of_unmarked hsame).trans rfl⟩, (hooks_of_unmarked hsame).trans rfl⟩
  | faults f _ _ hsame _ =>
      exact ⟨⟨x.queue.wait, (queue_of_unmarked hsame).trans rfl⟩, (hooks_of_unmarked hsame).trans rfl⟩
  | leaves _ _ => exact absurd rfl h

/-- Behind a round that does not end the emulator the queue has lost its next command. -/
theorem queue_round (hlive : e.finished = false) (h : e.deed? ≠ some .finish) :
    (∃ wait next, e.round.1.queue =
      { e.queue with pending := e.queue.pending.tail, wait := wait, nextPulse := next }) ∧
      e.round.1.hooks = e.hooks := by
  have hperform : ∀ d a, e.deed? = some d → e.poised d = e.ready → e.actsOf d = [a] → a ≠ .leave →
      (∃ wait next, e.round.1.queue =
        { e.queue with pending := e.queue.pending.tail, wait := wait, nextPulse := next }) ∧
        e.round.1.hooks = e.hooks := by
    intro d a hdeed hpoised hacts ha
    obtain ⟨⟨wait, hqueue⟩, hhooks⟩ := queue_perform (x := e.ready) ha
    obtain ⟨next, clock, hready⟩ := ready_eq e
    rw [fst_round_of_deed hdeed, hpoised, hacts, performAll_singleton, hqueue, hhooks]
    rw [hready]
    exact ⟨⟨wait, next, rfl⟩, rfl⟩
  cases hdeed : e.deed? with
  | none =>
      rw [round_of_rest hdeed]
      refine ⟨⟨e.queue.wait, e.queue.nextPulse, ?_⟩, rfl⟩
      cases hpending : e.queue.pending with
      | nil => rw [List.tail_nil, ← hpending]
      | cons c rest =>
          rw [deed?_of_pending hlive hpending] at hdeed
          cases hdeed
  | some d =>
      cases d with
      | obey c => exact hperform (.obey c) (.obey c) hdeed rfl rfl (by simp)
      | execute => exact hperform .execute .cycle hdeed rfl rfl (by simp)
      | pause b => exact hperform (.pause b) .cycle hdeed rfl rfl (by simp)
      | finish => exact absurd hdeed h

theorem finish_of_empty (h : e.queue.pending = []) : e.finish = e.leave := by
  have hsame : { e with queue := { e.queue with pending := [] } } = e := by rw [← h]
  unfold finish
  rw [h, hsame]
  rfl

/-- **The last round** only takes leave, if there is nothing behind the `terminate`. -/
theorem round_of_finish (h : e.deed? = some .finish) (hleft : e.queue.pending.tail = []) :
    e.round = e.ready.leave := by
  obtain ⟨next, clock, hready⟩ := ready_eq e
  rw [round_of_deed h]
  exact finish_of_empty (by rw [hready]; exact hleft)

/-! ### Histories -/

/-- What happens to an emulator, hooks that are registered included. -/
inductive Occasion where
  | move (m : Move)
  | register (hook : Hook)

namespace Occasion

/-- The emulator behind an occasion. -/
def apply (e : Emulator) : Occasion → Emulator
  | move m => m.apply e
  | register hook => e.register hook

/-- The command that is submitted. -/
def command? : Occasion → Option Command
  | move (.submit c) => some c
  | _ => none

/-- The hook that is registered. -/
def hook? : Occasion → Option Hook
  | register hook => some hook
  | move _ => none

def isRound : Occasion → Bool
  | move .round => true
  | _ => false

/-- The commands of the caller that are obeyed on an occasion. -/
def served (e : Emulator) : Occasion → List Command
  | move .round => e.served
  | _ => []

end Occasion

/-- The commands that are submitted, in their order. -/
def submissions (os : List Occasion) : List Command := os.filterMap Occasion.command?

/-- The hooks that are registered, in their order. -/
def registered (os : List Occasion) : List Hook := os.filterMap Occasion.hook?

/-- Who has gone away submits nothing. -/
def Orderly (os : List Occasion) : Prop :=
  os.Pairwise fun earlier later => earlier = .move .disconnect → later.command? = none

/-- The emulator behind some occasions. -/
def behind (e : Emulator) (os : List Occasion) : Emulator := os.foldl Occasion.apply e

/-- The commands of the caller that are obeyed on some occasions, in their order. -/
def servedIn : Emulator → List Occasion → List Command
  | _, [] => []
  | e, o :: os => o.served e ++ servedIn (o.apply e) os

theorem behind_append_singleton (e : Emulator) (os : List Occasion) (o : Occasion) :
    e.behind (os ++ [o]) = o.apply (e.behind os) :=
  List.foldl_append

theorem servedIn_append_singleton (e : Emulator) (os : List Occasion) (o : Occasion) :
    e.servedIn (os ++ [o]) = e.servedIn os ++ o.served (e.behind os) := by
  induction os generalizing e with
  | nil => exact List.append_nil _
  | cons o' os ih =>
      rw [List.cons_append, servedIn, servedIn, ih, List.append_assoc]
      rfl

theorem submissions_append_singleton (os : List Occasion) (o : Occasion) :
    submissions (os ++ [o]) = submissions os ++ o.command?.toList := by
  unfold submissions
  rw [List.filterMap_append]
  cases h : o.command? with
  | none => rw [List.filterMap_cons_none h]
            rfl
  | some c => rw [List.filterMap_cons_some h]
              rfl

theorem registered_append_singleton (os : List Occasion) (o : Occasion) :
    registered (os ++ [o]) = registered os ++ o.hook?.toList := by
  unfold registered
  rw [List.filterMap_append]
  cases h : o.hook? with
  | none => rw [List.filterMap_cons_none h]
            rfl
  | some hook => rw [List.filterMap_cons_some h]
                 rfl

/-- How far a caller got with an emulator: what was submitted, which hooks there are, whether the caller has
gone away, and the commands that were obeyed. -/
structure InOrder (cs : List Command) (hooks : List Hook) (gone : Prop) (done : List Command)
    (e : Emulator) : Prop where
  obeyed : ∀ c ∈ done, c.isTerminate = false
  order : e.finished = false → done ++ e.queue.pending = accepted cs
  ended : e.finished = true → done = toObey cs
  closed : e.finished = true → ends cs = true ∨ gone
  terminated : e.queue.terminated = ends cs
  attended : e.queue.attended = !e.finished
  connected : e.queue.connected = false ↔ gone
  hooks : e.finished = false → e.hooks = hooks

namespace InOrder

variable {cs : List Command} {hooks : List Hook} {gone : Prop}

theorem of_new (config : EmulatorConfig) (observers : Observers) :
    InOrder [] observers.hooks False [] (new config observers) where
  obeyed := by simp
  order := fun _ => rfl
  ended := by simp [new]
  closed := by simp [new]
  terminated := rfl
  attended := rfl
  connected := by simp [new, Queue.empty]
  hooks := fun _ => rfl

theorem elapse (h : InOrder cs hooks gone done e) (time : Nat) :
    InOrder cs hooks gone done { e with clock := e.clock + time } :=
  ⟨h.obeyed, h.order, h.ended, h.closed, h.terminated, h.attended, h.connected, h.hooks⟩

theorem disconnect (h : InOrder cs hooks gone done e) : InOrder cs hooks True done e.disconnect :=
  ⟨h.obeyed, h.order, h.ended, fun _ => .inr trivial, h.terminated, h.attended,
    by simp [Emulator.disconnect, Queue.disconnect], h.hooks⟩

theorem register (h : InOrder cs hooks gone done e) (hook : Hook) :
    InOrder cs (hooks ++ [hook]) gone done (e.register hook) := by
  refine ⟨h.obeyed, h.order, h.ended, h.closed, h.terminated, h.attended, h.connected, ?_⟩
  intro hlive
  show e.hooks ++ [hook] = _
  rw [h.hooks hlive]

/-- What is submitted behind a `terminate` is refused. -/
theorem refused (h : InOrder cs hooks gone done e) (hends : ends cs = true) (c : Command) :
    e.submit c = (e, .error .terminated) := by
  unfold submit
  rw [Queue.submit_terminated (h.terminated.trans hends)]

/-- What is submitted in front of a `terminate` is queued. -/
theorem queued (h : InOrder cs hooks gone done e) (hends : ends cs = false) (hgone : ¬ gone)
    (c : Command) : e.finished = false ∧
      e.submit c = ({ e with queue := { e.queue with
        terminated := c.isTerminate, pending := e.queue.pending ++ [c] } }, .ok ()) := by
  -- an emulator that has ended was told to, or has nobody who could submit
  have hlive : e.finished = false := by
    cases hfin : e.finished with
    | false => rfl
    | true =>
        rcases h.closed hfin with hclosed | hclosed
        · rw [hends] at hclosed
          cases hclosed
        · exact absurd hclosed hgone
  refine ⟨hlive, ?_⟩
  unfold submit Queue.submit
  simp [h.terminated, hends, h.attended, hlive]

theorem submit (h : InOrder cs hooks gone done e) (hgone : ends cs = false → ¬ gone) (c : Command) :
    InOrder (cs ++ [c]) hooks gone done (e.submit c).1 := by
  cases hends : ends cs with
  | true =>
      have hends' : ends (cs ++ [c]) = true := by rw [ends_append_singleton, hends, Bool.true_or]
      rw [h.refused hends c]
      refine ⟨h.obeyed, ?_, ?_, fun _ => .inl hends', ?_, h.attended, h.connected, h.hooks⟩
      · rw [accepted_append_of_ends hends]
        exact h.order
      · rw [toObey_append_of_ends hends]
        exact h.ended
      · rw [h.terminated, hends, hends']
  | false =>
      obtain ⟨hlive, hqueued⟩ := h.queued hends (hgone hends) c
      have hstill : ¬ (e.submit c).1.finished = true := by rw [hqueued]; simp [hlive]
      refine ⟨h.obeyed, fun _ => ?_, fun hfin => absurd hfin hstill, fun hfin => absurd hfin hstill, ?_,
        ?_, ?_, fun _ => ?_⟩
      all_goals rw [hqueued]
      · show done ++ (e.queue.pending ++ [c]) = _
        rw [accepted_append_of_not_ends hends, ← List.append_assoc, h.order hlive,
          accepted_of_not_ends hends]
      · show c.isTerminate = _
        rw [ends_append_singleton, hends, Bool.false_or]
      · exact h.attended
      · exact h.connected
      · exact h.hooks hlive

/-- When an emulator ends it has obeyed all that is to be obeyed. -/
theorem of_finish (h : InOrder cs hooks gone done e) (hdeed : e.deed? = some .finish) :
    done = toObey cs ∧ e.queue.pending.tail = [] ∧ (ends cs = true ∨ gone) := by
  have hlive := live_of_deed hdeed
  have hhead : ∀ c ∈ e.queue.pending.head?, c.isTerminate = true := by
    intro c hc
    obtain ⟨rest, hpending⟩ := List.head?_eq_some_iff.mp (Option.mem_def.mp hc)
    rw [deed?_of_pending hlive hpending] at hdeed
    cases hend : c.isTerminate with
    | true => rfl
    | false => simp [hend] at hdeed
  obtain ⟨hdone, htail⟩ := eq_toObey h.obeyed (h.order hlive) hhead
  refine ⟨hdone, htail, ?_⟩
  cases hpending : e.queue.pending with
  | nil => exact .inr (h.connected.mp ((finish_iff_of_empty hlive hpending).mp hdeed))
  | cons c rest =>
      have hmem : c ∈ accepted cs := by
        rw [← h.order hlive, hpending]
        simp
      refine .inl ?_
      cases hends : ends cs with
      | true => rfl
      | false =>
          rw [accepted_of_not_ends hends] at hmem
          exact absurd (hhead c (by rw [hpending]; rfl)) (List.any_eq_false.mp hends c hmem)

/-- **A round** keeps the order. -/
theorem round (h : InOrder cs hooks gone done e) :
    InOrder cs hooks gone (done ++ e.served) e.round.1 := by
  cases hfin : e.finished with
  | true =>
      have hdeed := deed?_of_finished hfin
      rwa [round_of_rest hdeed, served_of_rest hdeed, List.append_nil]
  | false =>
      by_cases hdeed : e.deed? = some .finish
      · obtain ⟨hdone, htail, hclosed⟩ := h.of_finish hdeed
        obtain ⟨next, clock, hready⟩ := ready_eq e
        rw [served_of_finish hdeed, htail, List.append_nil, round_of_finish hdeed htail, hready]
        exact ⟨h.obeyed, (nomatch ·), fun _ => hdone, fun _ => hclosed, h.terminated, rfl, h.connected,
          (nomatch ·)⟩
      · obtain ⟨⟨wait, next, hqueue⟩, hhooks⟩ := queue_round hfin hdeed
        have hlive := unfinished_round hfin hdeed
        have hstill : ¬ e.round.1.finished = true := by rw [hlive]; simp
        refine ⟨?_, fun _ => ?_, fun hend => absurd hend hstill, fun hend => absurd hend hstill, ?_, ?_, ?_,
          fun _ => hhooks.trans (h.hooks hfin)⟩
        · intro c hc
          rcases List.mem_append.mp hc with hc | hc
          · exact h.obeyed c hc
          · exact isTerminate_of_served hfin hdeed hc
        · rw [hqueue, served_of_not_finish hfin hdeed, List.append_assoc, ← List.drop_one,
            List.take_append_drop, h.order hfin]
        · rw [hqueue]
          exact h.terminated
        · rw [hqueue, hlive, ← hfin]
          exact h.attended
        · rw [hqueue]
          exact h.connected

/-- **Every occasion** keeps the order, as long as nobody submits who has gone away. -/
theorem step (h : InOrder cs hooks gone done e) (o : Occasion)
    (hgone : o.command? ≠ none → ends cs = false → ¬ gone) :
    InOrder (cs ++ o.command?.toList) (hooks ++ o.hook?.toList) (gone ∨ o = .move .disconnect)
      (done ++ o.served e) (o.apply e) := by
  cases o with
  | register hook =>
      simpa [Occasion.apply, Occasion.served, Occasion.command?, Occasion.hook?] using h.register hook
  | move m =>
      cases m with
      | submit c =>
          have hsubmit := h.submit (hgone (by simp [Occasion.command?])) c
          simpa [Occasion.apply, Move.apply, Occasion.served, Occasion.command?, Occasion.hook?] using hsubmit
      | disconnect =>
          simpa [Occasion.apply, Move.apply, Occasion.served, Occasion.command?, Occasion.hook?]
            using h.disconnect
      | elapse time =>
          simpa [Occasion.apply, Move.apply, Occasion.served, Occasion.command?, Occasion.hook?]
            using h.elapse time
      | round =>
          simpa [Occasion.apply, Move.apply, Occasion.served, Occasion.command?, Occasion.hook?]
            using h.round

end InOrder

section

variable {os later : List Occasion} {o : Occasion} {cs : List Command} {hooks : List Hook} {gone : Prop}

/-- **Wherever a caller stands** with an emulator, its commands are in their order. -/
theorem inOrder_behind (config : EmulatorConfig) (observers : Observers) (os : List Occasion) :
    Orderly os → InOrder (submissions os) (observers.hooks ++ registered os) (.move .disconnect ∈ os)
      ((new config observers).servedIn os) ((new config observers).behind os) := by
  -- from the last occasion backwards, since what may happen depends on whether the caller is still there
  induction os using List.reverseRecOn with
  | nil =>
      intro _
      simpa [submissions, registered, servedIn, behind] using InOrder.of_new config observers
  | append_singleton os o ih =>
      intro horderly
      obtain ⟨horderly, -, hlast⟩ := List.pairwise_append.mp horderly
      have hnext := (ih horderly).step o fun hsubmits _ hmem =>
        hsubmits (hlast _ hmem o (List.mem_singleton_self o) rfl)
      rw [behind_append_singleton, servedIn_append_singleton, submissions_append_singleton,
        registered_append_singleton, ← List.append_assoc]
      simpa [eq_comm] using hnext

/-- Nothing is done to or by an emulator that has ended. -/
theorem still_of_finished (h : e.finished = true) (o : Occasion) :
    (o.apply e).finished = true ∧ (o.apply e).machine = e.machine := by
  cases o with
  | register hook => exact ⟨h, rfl⟩
  | move m =>
      cases m with
      | submit c | disconnect | elapse time => exact ⟨h, rfl⟩
      | round =>
          show e.round.1.finished = true ∧ e.round.1.machine = e.machine
          rw [round_of_rest (deed?_of_finished h)]
          exact ⟨h, rfl⟩

theorem still_behind_of_finished (h : e.finished = true) (os : List Occasion) :
    (e.behind os).finished = true ∧ (e.behind os).machine = e.machine := by
  induction os generalizing e with
  | nil => exact ⟨h, rfl⟩
  | cons o os ih =>
      obtain ⟨hfin, hmachine⟩ := still_of_finished h o
      obtain ⟨hfin', hmachine'⟩ := ih hfin
      exact ⟨hfin', hmachine'.trans hmachine⟩

/-- While an emulator that was told to end has not, there is something left to obey. -/
theorem InOrder.pending_ne_nil (h : InOrder cs hooks gone done e) (hlive : e.finished = false)
    (hclosed : ends cs = true ∨ gone) (hdeed : e.deed? ≠ some .finish) : e.queue.pending ≠ [] := by
  intro hpending
  have hgone : ¬ gone := fun hgone =>
    hdeed ((finish_iff_of_empty hlive hpending).mpr (h.connected.mpr hgone))
  have hends := hclosed.resolve_right hgone
  have horder := h.order hlive
  rw [hpending, List.append_nil, accepted, hends] at horder
  have hterminate := h.obeyed .terminate (by simp [horder])
  cases hterminate

/-- What is pending for an emulator that was told to end gets less with every round and never more. -/
theorem InOrder.pending_apply (h : InOrder cs hooks gone done e) (hclosed : ends cs = true ∨ gone)
    (hsubmits : o.command? ≠ none → ends cs = true) (hlive : (o.apply e).finished = false) :
    e.finished = false ∧
      (o.apply e).queue.pending.length + (if o.isRound then 1 else 0) ≤ e.queue.pending.length := by
  have hlive' : e.finished = false := by
    cases hfin : e.finished with
    | false => rfl
    | true => rw [(still_of_finished hfin o).1] at hlive; cases hlive
  refine ⟨hlive', ?_⟩
  cases o with
  | register hook => exact Nat.le_refl _
  | move m =>
      cases m with
      | submit c =>
          show (e.submit c).1.queue.pending.length ≤ _
          rw [h.refused (hsubmits (by simp [Occasion.command?])) c]
      | disconnect | elapse time => exact Nat.le_refl _
      | round =>
          have hdeed : e.deed? ≠ some .finish := by
            intro hdeed
            have hfin : e.round.1.finished = true := by
              rw [round_of_finish hdeed (h.of_finish hdeed).2.1]
              rfl
            rw [show e.round.1.finished = false from hlive] at hfin
            cases hfin
          obtain ⟨⟨wait, next, hqueue⟩, -⟩ := queue_round hlive' hdeed
          have hpos := List.length_pos_iff.mpr (h.pending_ne_nil hlive' hclosed hdeed)
          show e.round.1.queue.pending.length + 1 ≤ _
          rw [hqueue]
          simp only [List.length_tail]
          omega

/-- Behind a `terminate`, or once the caller has gone away, an emulator ends as soon as it has obeyed what
is pending. -/
theorem finished_behind_of_closed (h : InOrder cs hooks gone done e) (hclosed : ends cs = true ∨ gone)
    (hlater : ∀ o ∈ later, o.command? ≠ none → ends cs = true)
    (hrounds : e.queue.pending.length < later.countP Occasion.isRound) :
    (e.behind later).finished = true := by
  induction later generalizing e cs hooks gone done with
  | nil => exact absurd hrounds (Nat.not_lt_zero _)
  | cons o later ih =>
      have hsubmits := hlater o List.mem_cons_self
      have hends : ends cs = true → ends (cs ++ o.command?.toList) = true := by
        intro hends
        rw [ends, List.any_append]
        exact Bool.or_eq_true_iff.mpr (.inl hends)
      cases hfin : (o.apply e).finished with
      | true => exact (still_behind_of_finished hfin later).1
      | false =>
          have hnext := h.step o fun hcommand hopen => by simp [hsubmits hcommand] at hopen
          refine ih hnext (hclosed.imp hends .inl) ?_ ?_
          · intro o' hmem hcommand
            exact hends (hlater o' (List.mem_cons_of_mem _ hmem) hcommand)
          · have hless := (h.pending_apply hclosed hsubmits hfin).2
            rw [List.countP_cons] at hrounds
            omega

/-! ### All of it -/

/-- An emulator behind some occasions on which it obeyed the commands `done` of its caller, who submits
nothing once gone. -/
structure Serves (config : EmulatorConfig) (observers : Observers) (os : List Occasion)
    (done : List Command) (e : Emulator) : Prop where
  orderly : Orderly os
  done_eq : done = (new config observers).servedIn os
  eq : e = (new config observers).behind os

theorem Serves.inOrder (h : Serves config observers os done e) :
    InOrder (submissions os) (observers.hooks ++ registered os) (.move .disconnect ∈ os) done e := by
  obtain ⟨horderly, rfl, rfl⟩ := h
  exact inOrder_behind config observers os horderly

/-- What an emulator tells that takes its leave. -/
theorem events_leave (e : Emulator) :
    e.leave.2 = [.changed ⟨.stopped, .stopped, e.machine.pc, none⟩,
      .state ⟨.stopped, .stopped, e.machine.pc, none⟩] ++ e.failures .stateListener ++
        (e.hooks.map Hook.event ++ [.terminated]) := rfl

/-- **Commands are obeyed in the order of their submission**, each once, up to the first `terminate`.
Wherever a caller stands with an emulator, however its submissions and the rounds were mixed:

* what was obeyed and what is pending are together what was submitted up to the first `terminate`, and an
  emulator that has ended has obeyed all that was submitted in front of it;
* whatever is submitted is refused if a `terminate` was submitted, and accepted else;
* what is obeyed next is the first command that is pending, or a pulse that came by itself if none is, and
  an emulator that goes on by itself has obeyed all that was submitted;
* the last round comes when all is obeyed that was submitted in front of the `terminate`; in it the
  emulator tells once that it has stopped and then calls every hook that was registered, once;
* behind that it does nothing, and the machine stays as it is;
* the last round comes at the latest with the round behind those that obey what is pending. -/
theorem served_in_order (h : Serves config observers os done e) :
    (e.finished = false → done ++ e.queue.pending = accepted (submissions os)) ∧
    (e.finished = true → done = toObey (submissions os)) ∧
    (∀ c, .move .disconnect ∉ os →
      (e.submit c).2 = if ends (submissions os) then .error .terminated else .ok ()) ∧
    (∀ c, e.deed? = some (.obey c) →
      e.queue.pending.head? = some c ∨ e.queue.pending = [] ∧ c = .pulse) ∧
    (e.Cycles → done = submissions os) ∧
    (e.deed? = some .finish →
      done = toObey (submissions os) ∧ e.round.1.finished = true ∧ e.round.1.machine = e.machine ∧
      e.round.2 = [.changed ⟨.stopped, .stopped, e.machine.pc, none⟩,
        .state ⟨.stopped, .stopped, e.machine.pc, none⟩] ++ e.failures .stateListener ++
          ((observers.hooks ++ registered os).map Hook.event ++ [.terminated])) ∧
    (e.finished = true → ∀ later,
      (e.behind later).deed? = none ∧ (e.behind later).machine = e.machine) ∧
    (∀ later, Orderly (os ++ later) → ends (submissions os) = true ∨ .move .disconnect ∈ os →
      e.queue.pending.length < later.countP Occasion.isRound → (e.behind later).finished = true) := by
  have horder := h.inOrder
  refine ⟨horder.order, horder.ended, ?_, ?_, ?_, ?_, ?_, ?_⟩
  · intro c hcaller
    cases hends : ends (submissions os) with
    | true => rw [horder.refused hends c]
              rfl
    | false => rw [(horder.queued hends hcaller c).2]
               rfl
  · intro c hdeed
    cases hpending : e.queue.pending with
    | nil => exact .inr ⟨rfl, eq_pulse_of_obey hpending hdeed⟩
    | cons c' rest =>
        rw [deed?_of_pending (live_of_deed hdeed) hpending] at hdeed
        cases hend : c'.isTerminate with
        | true => simp [hend] at hdeed
        | false =>
            obtain rfl : c' = c := by simpa [hend] using hdeed
            exact .inl rfl
  · intro hcycles
    obtain ⟨hlive, -, hcalm, -⟩ := cycles_iff.mp hcycles
    have hdone := horder.order hlive
    rw [hcalm.pending, List.append_nil] at hdone
    cases hends : ends (submissions os) with
    | false => rw [hdone, accepted_of_not_ends hends]
    | true =>
        have hterminate := horder.obeyed .terminate (by simp [hdone, accepted, hends])
        cases hterminate
  · intro hdeed
    obtain ⟨hdone, htail, -⟩ := horder.of_finish hdeed
    obtain ⟨next, clock, hready⟩ := ready_eq e
    rw [round_of_finish hdeed htail, events_leave, hready, ← horder.hooks (live_of_deed hdeed)]
    exact ⟨hdone, rfl, rfl, rfl⟩
  · intro hfin later
    obtain ⟨hfin', hmachine⟩ := still_behind_of_finished hfin later
    exact ⟨deed?_of_finished hfin', hmachine⟩
  · intro later horderly hclosed hrounds
    refine finished_behind_of_closed horder hclosed ?_ hrounds
    intro o hmem hcommand
    refine hclosed.resolve_right fun hgone => hcommand ?_
    exact (List.pairwise_append.mp horderly).2.2 _ hgone o hmem rfl

/-- A start, a hook, a stop, a `terminate` and a step that is refused, and then nobody is there any more. -/
def departing : List Occasion :=
  [.move (.submit .start), .register ⟨some "late"⟩, .move .round, .move (.submit .stop),
    .move (.submit .terminate), .move (.submit .step), .move .round, .move .disconnect]

theorem served_in_order_departing :
    (new ⟨.glyphOne, 1, none⟩ .none).servedIn departing = [.start, .stop] ∧
      (((new ⟨.glyphOne, 1, none⟩ .none).behind (departing.take 7)).submit .step).2 =
        .error .terminated ∧
      ((new ⟨.glyphOne, 1, none⟩ .none).behind departing).round.2 =
        [.changed ⟨.stopped, .stopped, 5, none⟩, .state ⟨.stopped, .stopped, 5, none⟩, .shutdown,
          .failed .shutdownHook "late", .terminated] ∧
      ((new ⟨.glyphOne, 1, none⟩ .none).behind (departing ++ [.move .round, .move .round])).finished =
        true := by
  have hserves : ∀ os, Orderly os → Serves ⟨.glyphOne, 1, none⟩ .none os
      ((new ⟨.glyphOne, 1, none⟩ .none).servedIn os) ((new ⟨.glyphOne, 1, none⟩ .none).behind os) :=
    fun _ horderly => ⟨horderly, rfl, rfl⟩
  have horderly : Orderly departing := by simp [Orderly, departing, Occasion.command?]
  have horderly' : Orderly (departing.take 7) := by simp [Orderly, departing]
  have horderly'' : Orderly (departing ++ [.move .round, .move .round]) := by
    simp [Orderly, departing, Occasion.command?]
  have hdeed : ((new ⟨.glyphOne, 1, none⟩ .none).behind departing).deed? = some .finish := rfl
  have hplace : ((new ⟨.glyphOne, 1, none⟩ .none).behind departing).machine.pc = 5 := by
    decide +kernel
  obtain ⟨-, -, -, -, -, hlast, -, hends⟩ := served_in_order (hserves departing horderly)
  obtain ⟨-, -, hsubmit, -, -, -, -, -⟩ := served_in_order (hserves (departing.take 7) horderly')
  obtain ⟨hdone, -, -, htold⟩ := hlast hdeed
  rw [hplace] at htold
  refine ⟨hdone, hsubmit .step (by simp [departing]), htold, ?_⟩
  rw [behind, List.foldl_append]
  exact hends [.move .round, .move .round] horderly'' (.inl rfl) (by decide +kernel)

end

end Emulator

end Chip8
