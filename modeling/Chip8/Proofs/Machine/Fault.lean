import Chip8.Proofs.Machine.DelayWait

/-! # Faults

What a tick can end in, and what a fault leaves behind.

* **Execution.** `Executes m i`: the machine awaits nothing and its next word is the instruction `i`.
  `tick_cases` lists all that a tick does: nothing while an event is awaited, a fault at a word that
  is no instruction, and what the meaning of the instruction says otherwise.
* **Instructions.** Only a call with a full stack and a return with an empty one fault, and they
  change nothing then (`fault_perform_iff`, `perform_of_fault`).
* `fault_of_reachable`: a tick that faults leaves the whole machine as it was, so that every further
  tick faults in the same way. -/

namespace Chip8

open Instruction

namespace Machine

variable {c : Config} {m : Machine} {i : Instruction} {f : Fault} {a t top : UInt16}
  {rest : List UInt16}

/-- A tick of the machine executes the instruction. -/
structure Executes (m : Machine) (i : Instruction) : Prop where
  awake : m.wait = .none
  word : decode (m.wordAt m.pc.toNat) = some i

/-! ### Instructions -/

/-- Reading the timer parks the machine or goes on. -/
theorem perform_ldFromDelay_cases (m : Machine) (x : Reg) :
    m.perform (.ldFromDelay x) = done (m.park x) ∨
      m.perform (.ldFromDelay x) = done (m.next.put x m.delay.value.toNat) := by
  by_cases hparks : m.delay.value ≠ 0 ∧ m.loopsOn x
  · exact .inl (perform_ldFromDelay_of_loop hparks)
  · exact .inr (perform_ldFromDelay_of_not_loop hparks)

theorem perform_ret_of_empty (hstack : m.stack = []) :
    m.perform .ret = (m, some (.stackUnderflow m.pc)) := by
  unfold perform
  rw [hstack]

theorem perform_ret_of_cons (hstack : m.stack = top :: rest) :
    m.perform .ret = done ({ m with stack := rest }.jumpTo top.toNat) := by
  unfold perform
  rw [hstack]

theorem perform_call_of_full (hfull : m.sp = stackDepth) :
    m.perform (.call t) = (m, some (.stackOverflow m.pc)) :=
  if_pos hfull

theorem perform_call_of_room (hroom : m.sp ≠ stackDepth) :
    m.perform (.call t) = done ({ m with stack := m.next.pc :: m.stack }.jumpTo t.toNat) :=
  if_neg hroom

/-- A return changes the program counter and the stack only. -/
theorem exists_perform_ret (m : Machine) :
    ∃ p s f, m.perform .ret = ({ m with pc := p, stack := s }, f) := by
  cases hstack : m.stack with
  | nil => exact ⟨m.pc, m.stack, _, perform_ret_of_empty hstack⟩
  | cons top rest => exact ⟨_, rest, none, perform_ret_of_cons hstack⟩

/-- So does a call. -/
theorem exists_perform_call (m : Machine) (t : UInt16) :
    ∃ p s f, m.perform (.call t) = ({ m with pc := p, stack := s }, f) := by
  by_cases hfull : m.sp = stackDepth
  · exact ⟨m.pc, m.stack, _, perform_call_of_full hfull⟩
  · exact ⟨_, _, none, perform_call_of_room hfull⟩

/-- No other instruction faults. -/
theorem perform_succeeds (hret : i ≠ .ret) (hcall : ∀ t, i ≠ .call t) :
    (m.perform i).2 = none := by
  cases i with
  | ret => exact absurd rfl hret
  | call t => exact absurd rfl (hcall t)
  | ldFromDelay x =>
      obtain hread | hread := perform_ldFromDelay_cases m x
      · rw [hread]
        rfl
      · rw [hread]
        rfl
  | _ => rfl

/-- **Faults of instructions.** A call faults with a full stack, a return with an empty one. -/
theorem fault_perform_iff :
    (m.perform i).2 = some f ↔
      ((∃ t, i = .call t) ∧ m.sp = stackDepth ∧ f = .stackOverflow m.pc) ∨
        (i = .ret ∧ m.sp = 0 ∧ f = .stackUnderflow m.pc) := by
  constructor
  · intro hf
    by_cases hret : i = .ret
    · subst hret
      cases hstack : m.stack with
      | nil =>
          rw [perform_ret_of_empty hstack] at hf
          have hempty : m.sp = 0 := by rw [sp, hstack, List.length_nil]
          exact .inr ⟨rfl, hempty, (Option.some.inj hf).symm⟩
      | cons top rest =>
          rw [perform_ret_of_cons hstack] at hf
          cases hf
    · by_cases hcall : ∃ t, i = .call t
      · obtain ⟨t, rfl⟩ := hcall
        by_cases hfull : m.sp = stackDepth
        · rw [perform_call_of_full hfull] at hf
          exact .inl ⟨⟨t, rfl⟩, hfull, (Option.some.inj hf).symm⟩
        · rw [perform_call_of_room hfull] at hf
          cases hf
      · rw [perform_succeeds hret fun t ht => hcall ⟨t, ht⟩] at hf
        cases hf
  · rintro (⟨⟨t, rfl⟩, hfull, rfl⟩ | ⟨rfl, hempty, rfl⟩)
    · rw [perform_call_of_full hfull]
    · rw [perform_ret_of_empty (List.length_eq_zero_iff.mp hempty)]

theorem perform_of_fault (hf : (m.perform i).2 = some f) : m.perform i = (m, some f) := by
  obtain ⟨⟨t, rfl⟩, hfull, rfl⟩ | ⟨rfl, hempty, rfl⟩ := fault_perform_iff.mp hf
  · exact perform_call_of_full hfull
  · exact perform_ret_of_empty (List.length_eq_zero_iff.mp hempty)

/-! ### Ticks -/

theorem tick_of_awaiting (hwait : m.wait ≠ .none) : m.tick = (m, none) :=
  tick_of_waiting (Bool.eq_false_iff.mpr fun hempty => hwait (WaitFlags.isEmpty_iff.mp hempty))

theorem tick_of_executes (hc : c.check = .ok c) (h : Sound c m) (hi : m.Executes i) :
    m.tick = m.perform i := by
  rw [tick_eq_stepDecoded hc h hi.awake, stepDecoded, hi.word]
  rfl

/-- **All that a tick does.** -/
theorem tick_cases (hc : c.check = .ok c) (h : Sound c m) :
    (m.wait ≠ .none ∧ m.tick = (m, none)) ∨
      (m.wait = .none ∧ decode (m.wordAt m.pc.toNat) = none ∧
        m.tick = (m, some (.illegalInstruction m.pc (m.wordAt m.pc.toNat)))) ∨
      ∃ i, m.Executes i ∧ m.tick = m.perform i := by
  by_cases hwait : m.wait = .none
  · cases hdecode : decode (m.wordAt m.pc.toNat) with
    | none =>
        have htick : m.tick = m.performDecoded (m.wordAt m.pc.toNat) none := by
          rw [tick_eq_stepDecoded hc h hwait, stepDecoded, hdecode]
        exact .inr (.inl ⟨hwait, rfl, htick⟩)
    | some i => exact .inr (.inr ⟨i, ⟨hwait, hdecode⟩, tick_of_executes hc h ⟨hwait, hdecode⟩⟩)
  · exact .inl ⟨hwait, tick_of_awaiting hwait⟩

/-- **A fault changes nothing.** -/
theorem tick_of_fault (hc : c.check = .ok c) (h : Sound c m) (hf : m.tick.2 = some f) :
    m.tick = (m, some f) ∧ f.address = m.pc := by
  obtain ⟨_, htick⟩ | ⟨_, _, htick⟩ | ⟨i, _, htick⟩ := tick_cases hc h
  · rw [htick] at hf
    cases hf
  · rw [htick] at hf ⊢
    obtain rfl := Option.some.inj hf
    exact ⟨rfl, rfl⟩
  · rw [htick] at hf ⊢
    refine ⟨perform_of_fault hf, ?_⟩
    obtain ⟨_, _, rfl⟩ | ⟨_, _, rfl⟩ := fault_perform_iff.mp hf
    · rfl
    · rfl

/-- A fault of the stack comes from the instruction that is executed. -/
theorem fault_tick_iff (hc : c.check = .ok c) (h : Sound c m)
    (hf : ∀ a w, f ≠ .illegalInstruction a w) :
    m.tick.2 = some f ↔ ∃ i, m.Executes i ∧ (m.perform i).2 = some f := by
  constructor
  · intro hfault
    obtain ⟨_, htick⟩ | ⟨_, _, htick⟩ | ⟨i, hi, htick⟩ := tick_cases hc h
    · rw [htick] at hfault
      cases hfault
    · rw [htick] at hfault
      exact absurd (Option.some.inj hfault).symm (hf _ _)
    · exact ⟨i, hi, htick ▸ hfault⟩
  · rintro ⟨i, hi, hfault⟩
    rw [tick_of_executes hc h hi, hfault]

theorem overflow_tick_iff (hc : c.check = .ok c) (h : Sound c m) :
    m.tick.2 = some (.stackOverflow a) ↔
      (∃ t, m.Executes (.call t)) ∧ m.sp = stackDepth ∧ a = m.pc := by
  rw [fault_tick_iff hc h fun _ _ => by simp]
  constructor
  · rintro ⟨i, hi, hfault⟩
    obtain ⟨⟨t, rfl⟩, hfull, heq⟩ | ⟨_, _, heq⟩ := fault_perform_iff.mp hfault
    · exact ⟨⟨t, hi⟩, hfull, Fault.stackOverflow.inj heq⟩
    · cases heq
  · rintro ⟨⟨t, hi⟩, hfull, rfl⟩
    exact ⟨_, hi, fault_perform_iff.mpr (.inl ⟨⟨t, rfl⟩, hfull, rfl⟩)⟩

theorem underflow_tick_iff (hc : c.check = .ok c) (h : Sound c m) :
    m.tick.2 = some (.stackUnderflow a) ↔ m.Executes .ret ∧ m.sp = 0 ∧ a = m.pc := by
  rw [fault_tick_iff hc h fun _ _ => by simp]
  constructor
  · rintro ⟨i, hi, hfault⟩
    obtain ⟨_, _, heq⟩ | ⟨rfl, hempty, heq⟩ := fault_perform_iff.mp hfault
    · cases heq
    · exact ⟨hi, hempty, Fault.stackUnderflow.inj heq⟩
  · rintro ⟨hi, hempty, rfl⟩
    exact ⟨_, hi, fault_perform_iff.mpr (.inr ⟨rfl, hempty, rfl⟩)⟩

/-- **Faults.** A tick that faults leaves every part of the machine as it was, names the address that
the program counter stands at, and is followed by ticks with the same fault only. The stack
overflows exactly at a call with all its places taken, and underflows exactly at a return with none
taken. A machine that awaits an event does nothing. -/
theorem fault_of_reachable (hc : c.check = .ok c) (h : Reachable c m) :
    (∀ f, m.tick.2 = some f →
        m.tick.1 = m ∧ f.address = m.pc ∧
          ∀ k, ((fun n : Machine => n.tick.1)^[k] m).tick = (m, some f)) ∧
      (∀ a, m.tick.2 = some (.stackOverflow a) ↔
        (∃ t, m.Executes (.call t)) ∧ m.sp = 16 ∧ a = m.pc) ∧
      (∀ a, m.tick.2 = some (.stackUnderflow a) ↔ m.Executes .ret ∧ m.sp = 0 ∧ a = m.pc) ∧
      (m.wait ≠ .none → m.tick = (m, none)) := by
  have hsound := sound_of_reachable hc h
  refine ⟨fun f hf => ?_, fun _ => overflow_tick_iff hc hsound,
    fun _ => underflow_tick_iff hc hsound, tick_of_awaiting⟩
  obtain ⟨htick, haddress⟩ := tick_of_fault hc hsound hf
  have hsame : m.tick.1 = m := by rw [htick]
  refine ⟨hsame, haddress, fun k => ?_⟩
  -- The machine is a fixed point of the tick, so all further ticks start from it.
  rw [Function.iterate_fixed hsame k, htick]

theorem reachable_iterate_tick (h : Reachable c m) (k : Nat) :
    Reachable c ((fun n : Machine => n.tick.1)^[k] m) := by
  induction k with
  | zero => exact h
  | succ k ih =>
      rw [Function.iterate_succ_apply']
      exact ih.step .tick

/-- The smallest machine behind sixteen calls of the word that calls itself. -/
def recursing : Machine :=
  (fun n : Machine => n.tick.1)^[16]
    ((Operation.load 5 ⟨[0x20, 0x05], none⟩).apply (new .glyphOne))

theorem fault_of_reachable_recursing :
    Config.glyphOne.check = .ok .glyphOne ∧ Reachable .glyphOne recursing ∧
      recursing.tick.2 = some (.stackOverflow 5) ∧
      ((fun n : Machine => n.tick.1)^[100] recursing).tick =
        (recursing, some (.stackOverflow 5)) := by
  have hc : Config.glyphOne.check = .ok .glyphOne := rfl
  have hreachable : Reachable .glyphOne recursing :=
    reachable_iterate_tick (.step .new (.load 5 ⟨[0x20, 0x05], none⟩)) 16
  obtain ⟨hfaults, hoverflow, _, _⟩ := fault_of_reachable hc hreachable
  have hcall : recursing.Executes (.call 5) := ⟨by decide +kernel, by decide +kernel⟩
  have hfull : recursing.sp = 16 := by decide +kernel
  have hpc : 5 = recursing.pc := by decide +kernel
  have hfault := (hoverflow 5).mpr ⟨⟨5, hcall⟩, hfull, hpc⟩
  obtain ⟨_, _, hagain⟩ := hfaults _ hfault
  exact ⟨hc, hreachable, hfault, hagain 100⟩

end Machine

end Chip8
