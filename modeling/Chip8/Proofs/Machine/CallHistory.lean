import Chip8.Proofs.Machine.Fault
import Mathlib.Data.List.Infix

/-! # Call history

The call stack holds the return addresses of the calls that have not returned.

* **Events.** `Operation.callEvents` are the calls and returns that an operation executes, and
  `callHistory` those of a whole run. A call or a return that faults is not executed.
* **Matching.** A call is answered if the returns outnumber the calls at some point behind it.
  `pendingCalls` are the calls of a history that are not answered, and `openReturns` counts the
  returns that answer none of its calls.
* **Stack.** `callEvents_cases` says what an operation does to the stack, `stack_run` what a run
  does. A return address and those below it stay where they are until the stack shrinks below them
  (`suffix_run`).
* `stack_of_reachable` puts this together for runs from a reset, and for the return that brings the
  stack back to what it was in front of a call. -/

namespace Chip8

open Instruction

/-- What happens to a call stack. -/
inductive CallEvent where
  /-- The call at the address. -/
  | call (a : UInt16)
  | ret
deriving DecidableEq, Repr

/-- The call or the return that an operation executes, if it does. -/
def Operation.callEvents (m : Machine) (op : Operation) : List CallEvent :=
  if op = .tick ∧ m.wait = .none ∧ m.tick.2 = none then
    match decode (m.wordAt m.pc.toNat) with
    | some (.call _) => [.call m.pc]
    | some .ret => [.ret]
    | _ => []
  else []

/-- The calls and returns that a run executes, oldest first. -/
def Machine.callHistory (m : Machine) : List Operation → List CallEvent
  | [] => []
  | op :: ops => op.callEvents m ++ (op.apply m).callHistory ops

/-- Where a call at the address returns to. -/
def returnAddress (c : Config) (a : UInt16) : UInt16 := ((a.toNat + 2) % c.memorySize).toUInt16

namespace CallEvent

variable {es : List CallEvent} {a : UInt16}

/-! ### Matching -/

/-- How many more calls than returns a history has. -/
def depth : List CallEvent → Int
  | [] => 0
  | .call _ :: es => depth es + 1
  | .ret :: es => depth es - 1

/-- Whether a history returns to below where it begins at some point. -/
def Answers (es : List CallEvent) : Prop := ∃ p ∈ es.inits, depth p < 0

instance (es : List CallEvent) : Decidable (Answers es) :=
  inferInstanceAs (Decidable (∃ p ∈ es.inits, _))

/-- The addresses of the calls of a history that are not answered in it, oldest first. -/
def pendingCalls : List CallEvent → List UInt16
  | [] => []
  | .call a :: es => if Answers es then pendingCalls es else a :: pendingCalls es
  | .ret :: es => pendingCalls es

/-- The number of returns that answer no call of a history. A call takes one of those behind it. -/
def openReturns : List CallEvent → Nat
  | [] => 0
  | .call _ :: es => openReturns es - 1
  | .ret :: es => openReturns es + 1

theorem exists_prefix_cons {P : List CallEvent → Prop} {e : CallEvent} :
    (∃ p, p <+: e :: es ∧ P p) ↔ P [] ∨ ∃ p, p <+: es ∧ P (e :: p) := by
  constructor
  · rintro ⟨p, hp, hP⟩
    obtain rfl | ⟨q, rfl, hq⟩ := List.prefix_cons_iff.mp hp
    · exact .inl hP
    · exact .inr ⟨q, hq, hP⟩
  · rintro (hP | ⟨p, hp, hP⟩)
    · exact ⟨[], List.nil_prefix, hP⟩
    · exact ⟨e :: p, List.cons_prefix_cons.mpr ⟨rfl, hp⟩, hP⟩

theorem not_depth_nil_lt (d : Nat) : ¬ depth [] + d < 0 := by
  rw [depth]
  omega

/-- The open returns are how far a history returns to below where it begins. -/
theorem lt_openReturns_iff {d : Nat} :
    d < openReturns es ↔ ∃ p, p <+: es ∧ depth p + d < 0 := by
  induction es generalizing d with
  | nil => simp [openReturns, depth]
  | cons e es ih =>
      cases e with
      | call a =>
          -- A call lifts all prefixes behind it by one, the bound follows.
          have hshift : d < openReturns (.call a :: es) ↔ d + 1 < openReturns es := by
            rw [openReturns]
            omega
          have hdepth : ∀ p, depth (.call a :: p) + d < 0 ↔ depth p + (d + 1 : Nat) < 0 := by
            intro p
            rw [depth]
            omega
          rw [hshift, ih, exists_prefix_cons, or_iff_right (not_depth_nil_lt d)]
          simp only [hdepth]
      | ret =>
          cases d with
          | zero =>
              rw [openReturns]
              exact ⟨fun _ => ⟨[.ret], by simp, by decide⟩, fun _ => Nat.succ_pos _⟩
          | succ d =>
              have hdepth : ∀ p, depth (.ret :: p) + (d + 1 : Nat) < 0 ↔ depth p + d < 0 := by
                intro p
                rw [depth]
                omega
              rw [openReturns, Nat.succ_lt_succ_iff, ih, exists_prefix_cons,
                or_iff_right (not_depth_nil_lt (d + 1))]
              simp only [hdepth]

theorem answers_iff : Answers es ↔ 0 < openReturns es := by
  simp [Answers, lt_openReturns_iff]

end CallEvent

namespace Machine

open CallEvent

variable {c : Config} {m : Machine} {i : Instruction} {op : Operation} {base : List UInt16}

/-! ### Instructions and the stack -/

theorem stack_put (m : Machine) (x : Reg) (number : Nat) : (m.put x number).stack = m.stack := by
  unfold put
  rfl

theorem stack_park (m : Machine) (x : Reg) : (m.park x).stack = m.stack := by
  unfold park put
  rfl

theorem pc_next (h : Sound c m) : m.next.pc = returnAddress c m.pc := by
  rw [next, jumpTo, h.memory]
  rfl

theorem stack_call (h : Sound c m) {t : UInt16} (hdone : (m.perform (.call t)).2 = none) :
    (m.perform (.call t)).1.stack = returnAddress c m.pc :: m.stack := by
  have hroom : m.sp ≠ stackDepth := by
    intro hfull
    rw [perform_call_of_full hfull] at hdone
    cases hdone
  rw [perform_call_of_room hroom, ← pc_next h]
  rfl

theorem stack_ret (h : Sound c m) (hdone : (m.perform .ret).2 = none) :
    m.stack = (m.perform .ret).1.pc :: (m.perform .ret).1.stack := by
  cases hstack : m.stack with
  | nil =>
      rw [perform_ret_of_empty hstack] at hdone
      cases hdone
  | cons top rest =>
      have htop : top.toNat < m.memory.size := by
        rw [h.memory]
        exact h.stack top (hstack ▸ List.mem_cons_self ..)
      rw [perform_ret_of_cons hstack, jumpTo_of_lt (m := { m with stack := rest }) htop]
      rfl

/-- What an instruction that succeeds does to the stack. -/
theorem stack_perform (h : Sound c m) (hdone : (m.perform i).2 = none) :
    match i with
    | .call _ => (m.perform i).1.stack = returnAddress c m.pc :: m.stack
    | .ret => m.stack = (m.perform i).1.pc :: (m.perform i).1.stack
    | _ => (m.perform i).1.stack = m.stack := by
  cases i with
  | call t => exact stack_call h hdone
  | ret => exact stack_ret h hdone
  | ldFromDelay x =>
      obtain hread | hread := perform_ldFromDelay_cases m x
      · rw [hread, done, stack_park]
      · rw [hread, done, stack_put]
        rfl
  | _ => rfl

/-! ### Operations and the stack -/

theorem callEvents_of_ne_tick (hop : op ≠ .tick) : op.callEvents m = [] :=
  if_neg fun h => hop h.1

theorem callEvents_of_executes (hi : m.Executes i) (hdone : m.tick.2 = none) :
    Operation.tick.callEvents m =
      match i with
      | .call _ => [.call m.pc]
      | .ret => [.ret]
      | _ => [] := by
  rw [Operation.callEvents, if_pos ⟨rfl, hi.awake, hdone⟩, hi.word]
  cases i with
  | _ => rfl

theorem callEvents_of_not_done (h : m.wait ≠ .none ∨ m.tick.2 ≠ none) :
    Operation.tick.callEvents m = [] :=
  if_neg fun hevent => h.elim (fun hwait => hwait hevent.2.1) fun hfault => hfault hevent.2.2

/-- No operation but a tick, or a reset, touches the stack. -/
theorem stack_apply_of_ne_tick (hop : op ≠ .tick) (hreset : op ≠ .reset) :
    (op.apply m).stack = m.stack := by
  cases op with
  | tick => exact absurd rfl hop
  | reset => exact absurd rfl hreset
  | keyPressed code =>
      show (m.keyPressed code).stack = m.stack
      unfold keyPressed
      split
      · rfl
      · rfl
  | keyReleased code =>
      show (m.keyReleased code).stack = m.stack
      unfold keyReleased
      split
      · rfl
      · rfl
  | load a source =>
      rw [Operation.apply]
      split
      · rfl
      · rfl
  | resetMemory =>
      unfold Operation.apply
      rfl
  | _ => rfl

/-- **Operations and the stack.** An operation leaves the stack alone, puts a return address on it
and calls, or takes the return address off it that it continues at. -/
theorem callEvents_cases (hc : c.check = .ok c) (h : Sound c m) (hreset : op ≠ .reset) :
    (op.callEvents m = [] ∧ (op.apply m).stack = m.stack) ∨
      (op.callEvents m = [.call m.pc] ∧
        (op.apply m).stack = returnAddress c m.pc :: m.stack) ∨
      (op.callEvents m = [.ret] ∧ op = .tick ∧ m.Executes .ret ∧
        m.stack = (op.apply m).pc :: (op.apply m).stack) := by
  by_cases hop : op = .tick
  · subst hop
    show (_ ∧ m.tick.1.stack = _) ∨ (_ ∧ m.tick.1.stack = _) ∨
      (_ ∧ _ ∧ _ ∧ _ = m.tick.1.pc :: m.tick.1.stack)
    obtain ⟨hwait, htick⟩ | ⟨_, _, htick⟩ | ⟨i, hi, htick⟩ := tick_cases hc h
    · exact .inl ⟨callEvents_of_not_done (.inl hwait), by rw [htick]⟩
    · exact .inl ⟨callEvents_of_not_done (.inr (by simp [htick])), by rw [htick]⟩
    · cases hfault : m.tick.2 with
      | some f =>
          have hsame := (tick_of_fault hc h hfault).1
          exact .inl ⟨callEvents_of_not_done (.inr (by simp [hfault])), by rw [hsame]⟩
      | none =>
          have hevents := callEvents_of_executes hi hfault
          have hstack := stack_perform h (htick ▸ hfault)
          rw [htick]
          cases i with
          | call t => exact .inr (.inl ⟨hevents, hstack⟩)
          | ret => exact .inr (.inr ⟨hevents, rfl, hi, hstack⟩)
          | _ => exact .inl ⟨hevents, hstack⟩
  · exact .inl ⟨callEvents_of_ne_tick hop, stack_apply_of_ne_tick hop hreset⟩

/-! ### Runs -/

/-- **Runs and the stack.** A run puts the return addresses of its pending calls on what its open
returns leave of the stack. -/
theorem stack_run (hc : c.check = .ok c) (h : Sound c m) {ops : List Operation}
    (hops : .reset ∉ ops) :
    (m.run ops).stack =
      ((pendingCalls (m.callHistory ops)).map (returnAddress c)).reverse ++
        m.stack.drop (openReturns (m.callHistory ops)) := by
  induction ops generalizing m with
  | nil => rfl
  | cons op ops ih =>
      obtain ⟨hhead, htail⟩ := not_or.mp (fun hmem => hops (List.mem_cons.mpr hmem))
      have hrun := ih (h.apply hc op) htail
      rw [run_cons, callHistory, hrun]
      obtain ⟨hevents, hstack⟩ | ⟨hevents, hstack⟩ | ⟨hevents, _, _, hstack⟩ :=
        callEvents_cases hc h (Ne.symm hhead)
      · rw [hevents, hstack, List.nil_append]
      · rw [hevents, hstack, List.singleton_append, pendingCalls, openReturns]
        -- The first open return of the rest, if it has one, takes the new address off again.
        by_cases hanswers : Answers ((op.apply m).callHistory ops)
        · have hopen := answers_iff.mp hanswers
          obtain ⟨k, hk⟩ := Nat.exists_eq_succ_of_ne_zero (Nat.ne_of_gt hopen)
          rw [if_pos hanswers, hk]
          rfl
        · have hopen : openReturns ((op.apply m).callHistory ops) = 0 := by
            rw [answers_iff] at hanswers
            omega
          rw [if_neg hanswers, hopen]
          simp
      · rw [hevents, hstack, List.singleton_append, pendingCalls, openReturns, List.drop_succ_cons]

/-- What lies on the stack stays there until the stack shrinks below it. -/
theorem suffix_apply (hc : c.check = .ok c) (h : Sound c m) (hreset : op ≠ .reset)
    (hbase : base <:+ m.stack) (habove : base.length ≤ (op.apply m).sp) :
    base <:+ (op.apply m).stack := by
  obtain ⟨_, hstack⟩ | ⟨_, hstack⟩ | ⟨_, _, _, hstack⟩ := callEvents_cases hc h hreset
  · rw [hstack]
    exact hbase
  · rw [hstack]
    exact hbase.trans (List.suffix_cons _ _)
  · rw [hstack] at hbase
    obtain hall | hrest := List.suffix_cons_iff.mp hbase
    · rw [hall, List.length_cons, sp] at habove
      omega
    · exact hrest

theorem suffix_run (hc : c.check = .ok c) (h : Sound c m) {ops : List Operation}
    (hops : .reset ∉ ops) (hbase : base <:+ m.stack)
    (habove : ∀ p, p <+: ops → base.length ≤ (m.run p).sp) :
    base <:+ (m.run ops).stack := by
  induction ops generalizing m with
  | nil => exact hbase
  | cons op ops ih =>
      obtain ⟨hhead, htail⟩ := not_or.mp (fun hmem => hops (List.mem_cons.mpr hmem))
      have hstep := suffix_apply hc h (Ne.symm hhead) hbase (habove [op] (by simp))
      refine ih (h.apply hc op) htail hstep fun p hp => ?_
      exact habove (op :: p) (List.cons_prefix_cons.mpr ⟨rfl, hp⟩)

/-- An operation that brings the stack back to below a return address is the return to it. -/
theorem returns_of_sp (hc : c.check = .ok c) (h : Sound c m) (hreset : op ≠ .reset) {a : UInt16}
    (hbase : a :: base <:+ m.stack) (hback : (op.apply m).sp = base.length) :
    op = .tick ∧ m.Executes .ret ∧ (op.apply m).pc = a ∧ (op.apply m).stack = base := by
  have hlength := hbase.length_le
  rw [List.length_cons] at hlength
  rw [sp] at hback
  obtain ⟨_, hstack⟩ | ⟨_, hstack⟩ | ⟨_, hop, hret, hstack⟩ := callEvents_cases hc h hreset
  · rw [hstack] at hback
    omega
  · rw [hstack, List.length_cons] at hback
    omega
  · rw [hstack] at hbase
    -- The stack in front of the return is no higher than the suffix, so it is the suffix.
    have hall := hbase.eq_of_length (by rw [List.length_cons, List.length_cons, hback])
    obtain ⟨hpc, hrest⟩ := List.cons.inj hall
    exact ⟨hop, hret, hpc.symm, hrest.symm⟩

/-- **The call stack is the call history.** Behind every run from a reset, the stack holds the
return addresses of the calls that were executed and not answered, the oldest at its bottom. While
the stack stays higher than it was in front of a call, the return address of that call and those
below it stay on it, and only the return to that address brings the stack back to where it was. -/
theorem stack_of_reachable (hc : c.check = .ok c) (h : Reachable c m) :
    (∀ ops : List Operation, .reset ∉ ops →
        (m.reset.run ops).stack.reverse =
          (pendingCalls (m.reset.callHistory ops)).map (returnAddress c)) ∧
      ∀ t, m.Executes (.call t) → m.sp ≠ 16 → ∀ ops : List Operation, .reset ∉ ops →
        (∀ p, p <+: ops → m.sp < (m.tick.1.run p).sp) →
          returnAddress c m.pc :: m.stack <:+ (m.tick.1.run ops).stack ∧
            ∀ op : Operation, op ≠ .reset →
              (op.apply (m.tick.1.run ops)).sp = m.sp →
                op = .tick ∧ (m.tick.1.run ops).Executes .ret ∧
                  (op.apply (m.tick.1.run ops)).pc = returnAddress c m.pc ∧
                  (op.apply (m.tick.1.run ops)).stack = m.stack := by
  have hsound := sound_of_reachable hc h
  refine ⟨fun ops hops => ?_, fun t hcall hroom ops hops habove => ?_⟩
  · have hempty : m.reset.stack = [] := rfl
    rw [stack_run hc (hsound.reset hc) hops, hempty, List.drop_nil, List.append_nil,
      List.reverse_reverse]
  · have htick : m.tick.1.stack = returnAddress c m.pc :: m.stack := by
      rw [tick_of_executes hc hsound hcall, perform_call_of_room hroom, ← pc_next hsound]
      rfl
    have hnext : Sound c m.tick.1 := hsound.tick hc
    have hbase : returnAddress c m.pc :: m.stack <:+ (m.tick.1.run ops).stack :=
      suffix_run hc hnext hops (htick ▸ List.suffix_refl _) habove
    refine ⟨hbase, fun op hreset hback => ?_⟩
    exact returns_of_sp hc (hnext.run hc ops) hreset hbase hback

/-- The smallest memory in front of a call in its last two bytes, which returns behind the end of the
memory. The subroutine makes a call itself. -/
def nesting : Machine :=
  (Operation.setPc 78).apply
    ((Operation.load 78 ⟨[0x20, 0x02, 0x00, 0x00, 0x20, 0x06, 0x00, 0xEE, 0x00, 0xEE], none⟩).apply
      (new .glyphOne))

theorem reachable_nesting : Reachable .glyphOne nesting :=
  .step (.step .new (.load 78 ⟨[0x20, 0x02, 0x00, 0x00, 0x20, 0x06, 0x00, 0xEE, 0x00, 0xEE], none⟩))
    (.setPc 78)

/-- The glyph of the digit one calls from address 5. The call of `nesting` returns to address 0, with
the inner call and its return in between. -/
theorem stack_of_reachable_nesting :
    Config.glyphOne.check = .ok .glyphOne ∧ Reachable .glyphOne nesting ∧
      (nesting.reset.run [.tick, .pulse]).stack.reverse = [7] ∧
      nesting.Executes (.call 2) ∧ nesting.sp ≠ 16 ∧
      (Operation.tick.apply (nesting.tick.1.run [.tick, .tick])).pc = 0 ∧
      (Operation.tick.apply (nesting.tick.1.run [.tick, .tick])).stack = [] := by
  have hc : Config.glyphOne.check = .ok .glyphOne := rfl
  have hcall : nesting.Executes (.call 2) := ⟨by decide +kernel, by decide +kernel⟩
  have hroom : nesting.sp ≠ 16 := by decide +kernel
  have habove : ∀ p ∈ ([.tick, .tick] : List Operation).inits,
      nesting.sp < (nesting.tick.1.run p).sp := by decide +kernel
  have hback : (Operation.tick.apply (nesting.tick.1.run [.tick, .tick])).sp =
      nesting.sp := by decide +kernel
  have hpc : returnAddress .glyphOne nesting.pc = 0 := by decide +kernel
  have hstack : nesting.stack = [] := by decide +kernel
  obtain ⟨hruns, hcalls⟩ := stack_of_reachable hc reachable_nesting
  have hpending : (pendingCalls (nesting.reset.callHistory [.tick, .pulse])).map
      (returnAddress .glyphOne) = [7] := by decide +kernel
  have hinside := (hcalls 2 hcall hroom [.tick, .tick] (by decide) fun p hp =>
    habove p ((List.mem_inits p _).mpr hp)).2
  obtain ⟨_, _, hreturns, hrest⟩ := hinside .tick (by decide) hback
  rw [hpc] at hreturns
  rw [hstack] at hrest
  exact ⟨hc, reachable_nesting, (hruns [.tick, .pulse] (by decide)).trans hpending, hcall, hroom,
    hreturns, hrest⟩

end Machine

end Chip8
