import Chip8.Proofs.Machine.Fault

/-! # Handlers of any machine

What holds of the handlers whatever machine they are given, reachable or not.

* **Faults.** A handler that faults has changed nothing, so that a tick that faults leaves the whole
  machine as it was (`tick_eq_of_fault`).
* **Pictures.** `unmarked` forgets whether the picture has changed since it was last taken. No handler
  looks at that: machines that differ in nothing else have the same faults and differ in nothing else
  behind a tick (`tick_congr`).
* **Screens.** A tick leaves the picture alone or marks it as changed (`screen_tick`).
* **Ticks.** `ticked` is the machine behind a number of ticks. -/

namespace Chip8.Machine

open Word

variable {m n : Machine} {w a : UInt16} {f : Fault}

/-! ### Faults -/

theorem executeSystem_of_fault (hf : (m.executeSystem w a).2 = some f) :
    (m.executeSystem w a).1 = m := by
  unfold executeSystem at *
  grind [done, illegal]

theorem executeArithmetic_of_fault (hf : (m.executeArithmetic w a).2 = some f) :
    (m.executeArithmetic w a).1 = m := by
  unfold executeArithmetic at *
  grind [done, illegal]

theorem executeSkipKey_of_fault (hf : (m.executeSkipKey w a).2 = some f) :
    (m.executeSkipKey w a).1 = m := by
  unfold executeSkipKey at *
  grind [done, illegal]

theorem executeDevice_of_fault (hf : (m.executeDevice w a).2 = some f) :
    (m.executeDevice w a).1 = m := by
  unfold executeDevice at *
  grind [done, illegal]

/-- A handler that faults has changed nothing. -/
theorem execute_of_fault (hf : (m.execute w a).2 = some f) : (m.execute w a).1 = m := by
  unfold execute at *
  grind [done, illegal, executeCall, executeSystem_of_fault, executeArithmetic_of_fault,
    executeSkipKey_of_fault, executeDevice_of_fault]

/-- A tick that faults has changed nothing. -/
theorem tick_eq_of_fault (hf : m.tick.2 = some f) : m.tick = (m, some f) := by
  by_cases hwait : m.wait = .none
  · rw [tick_eq_settle hwait] at hf ⊢
    cases hstep : m.next.execute m.nextWord m.pc with
    | mk after fault =>
        rw [hstep] at hf
        cases fault with
        | none => cases hf
        | some g =>
            obtain rfl : g = f := Option.some.inj hf
            have hsame : (m.next.execute m.nextWord m.pc).1 = m.next :=
              execute_of_fault (congrArg Prod.snd hstep)
            obtain rfl : after = m.next := by rwa [hstep] at hsame
            rfl
  · rw [tick_of_awaiting hwait] at hf
    cases hf

/-! ### Pictures -/

/-- The machine whose picture counts as taken. -/
def unmarked (m : Machine) : Machine := m.takeFrame.2

/-- The outcome whose machine's picture counts as taken. -/
def Outcome.unmarked (o : Outcome) : Outcome := (o.1.unmarked, o.2)

@[simp] theorem wait_unmarked (m : Machine) : m.unmarked.wait = m.wait := rfl

@[simp] theorem pc_unmarked (m : Machine) : m.unmarked.pc = m.pc := rfl

theorem unmarked_skipIf (m : Machine) (condition : Bool) :
    m.unmarked.skipIf condition = (m.skipIf condition).unmarked := by
  unfold skipIf
  split
  · rfl
  · rfl

theorem unmarked_readDelay (m : Machine) (r : Reg) (a : UInt16) :
    m.unmarked.readDelay r a = (m.readDelay r a).unmarked := by
  have hloop : m.unmarked.isDelayLoop a r = m.isDelayLoop a r := rfl
  have hdelay : m.unmarked.delay = m.delay := rfl
  unfold readDelay
  dsimp only
  rw [hloop, hdelay]
  split
  · rfl
  · rfl

theorem unmarked_restoreBlock (m : Machine) (r : Reg) :
    m.unmarked.restoreBlock r = (m.restoreBlock r).unmarked := by
  have hfold : ∀ (rs : List Reg) (acc : Machine),
      rs.foldl (fun acc (i : Reg) => acc.setReg i (m.memory.read (m.index + i.val.toUInt16)))
          acc.unmarked =
        (rs.foldl (fun acc (i : Reg) => acc.setReg i (m.memory.read (m.index + i.val.toUInt16)))
          acc).unmarked := by
    intro rs
    induction rs with
    | nil => exact fun _ => rfl
    | cons i rs ih => exact fun acc => ih (acc.setReg i _)
  exact congrArg (passBlock · r) (hfold (upTo r) m)

theorem unmarked_executeSystem (m : Machine) (w a : UInt16) :
    (m.unmarked.executeSystem w a).unmarked = (m.executeSystem w a).unmarked := by
  have hstack : m.unmarked.stack = m.stack := rfl
  unfold executeSystem
  rw [hstack]
  split
  · rfl
  · split
    · cases m.stack with
      | nil => rfl
      | cons top rest => rfl
    · rfl

theorem unmarked_executeCall (m : Machine) (w a : UInt16) :
    (m.unmarked.executeCall w a).unmarked = (m.executeCall w a).unmarked := by
  have hsp : m.unmarked.sp = m.sp := rfl
  unfold executeCall
  rw [hsp]
  split
  · rfl
  · rfl

theorem unmarked_executeArithmetic (m : Machine) (w a : UInt16) :
    (m.unmarked.executeArithmetic w a).unmarked = (m.executeArithmetic w a).unmarked := by
  unfold executeArithmetic
  dsimp only
  split
  all_goals rfl

theorem unmarked_executeSkipKey (m : Machine) (w a : UInt16) :
    (m.unmarked.executeSkipKey w a).unmarked = (m.executeSkipKey w a).unmarked := by
  unfold executeSkipKey
  dsimp only
  split
  · rw [unmarked_skipIf]
    rfl
  · split
    · rw [unmarked_skipIf]
      rfl
    · rfl

theorem unmarked_executeDevice (m : Machine) (w a : UInt16) :
    (m.unmarked.executeDevice w a).unmarked = (m.executeDevice w a).unmarked := by
  unfold executeDevice
  rw [unmarked_readDelay, unmarked_restoreBlock]
  dsimp only
  split
  all_goals rfl

/-- **No handler looks at whether the picture was taken.** -/
theorem unmarked_execute (m : Machine) (w a : UInt16) :
    (m.unmarked.execute w a).unmarked = (m.execute w a).unmarked := by
  unfold execute
  simp only [unmarked_skipIf]
  split
  · exact unmarked_executeSystem m w a
  · rfl
  · exact unmarked_executeCall m w a
  · rfl
  · rfl
  · split
    · rfl
    · rfl
  · rfl
  · rfl
  · exact unmarked_executeArithmetic m w a
  · split
    · rfl
    · rfl
  · rfl
  · rfl
  · rfl
  · rfl
  · exact unmarked_executeSkipKey m w a
  · exact unmarked_executeDevice m w a
  · rfl

theorem unmarked_settle (m : Machine) (o : Outcome) :
    (m.unmarked.settle o.unmarked).unmarked = (m.settle o).unmarked := by
  obtain ⟨after, fault⟩ := o
  cases fault with
  | none => rfl
  | some f => rfl

theorem unmarked_tick (m : Machine) : m.unmarked.tick.unmarked = m.tick.unmarked := by
  by_cases hwait : m.wait = .none
  · have hexecute := unmarked_execute m.next m.nextWord m.pc
    calc m.unmarked.tick.unmarked
        = (m.unmarked.settle (m.next.unmarked.execute m.nextWord m.pc)).unmarked := by
          rw [tick_eq_settle (m := m.unmarked) hwait]
          rfl
      _ = (m.unmarked.settle (m.next.unmarked.execute m.nextWord m.pc).unmarked).unmarked :=
          (unmarked_settle m.unmarked _).symm
      _ = (m.settle (m.next.execute m.nextWord m.pc)).unmarked := by
          rw [hexecute, unmarked_settle]
      _ = m.tick.unmarked := by rw [tick_eq_settle hwait]
  · rw [tick_of_awaiting hwait, tick_of_awaiting (m := m.unmarked) hwait]
    rfl

/-- **Ticks do not look at whether the picture was taken.** -/
theorem tick_congr (h : m.unmarked = n.unmarked) :
    m.tick.1.unmarked = n.tick.1.unmarked ∧ m.tick.2 = n.tick.2 := by
  have htick : m.tick.unmarked = n.tick.unmarked := by
    rw [← unmarked_tick m, h, unmarked_tick]
  exact Prod.ext_iff.mp htick

/-! ### Screens -/

theorem screen_skipIf (m : Machine) (condition : Bool) : (m.skipIf condition).screen = m.screen := by
  unfold skipIf
  split
  · rfl
  · rfl

theorem screen_readDelay (m : Machine) (r : Reg) (a : UInt16) : (m.readDelay r a).screen = m.screen := by
  unfold readDelay
  dsimp only
  split
  · rfl
  · rfl

theorem screen_restoreBlock (m : Machine) (r : Reg) : (m.restoreBlock r).screen = m.screen := by
  have hfold : ∀ (rs : List Reg) (acc : Machine),
      (rs.foldl (fun acc (i : Reg) => acc.setReg i (m.memory.read (m.index + i.val.toUInt16))) acc).screen =
        acc.screen := by
    intro rs
    induction rs with
    | nil => exact fun _ => rfl
    | cons i rs ih => exact fun acc => ih (acc.setReg i _)
  exact hfold (upTo r) m

theorem screen_executeArithmetic (m : Machine) (w a : UInt16) :
    (m.executeArithmetic w a).1.screen = m.screen := by
  unfold executeArithmetic
  dsimp only
  split
  all_goals rfl

theorem screen_executeSkipKey (m : Machine) (w a : UInt16) :
    (m.executeSkipKey w a).1.screen = m.screen := by
  unfold executeSkipKey
  dsimp only
  split
  · exact screen_skipIf m _
  · split
    · exact screen_skipIf m _
    · rfl

theorem screen_executeDevice (m : Machine) (w a : UInt16) :
    (m.executeDevice w a).1.screen = m.screen := by
  unfold executeDevice
  dsimp only
  split
  case h_1 => exact screen_readDelay m (x w) a
  case h_9 => exact screen_restoreBlock m (x w)
  all_goals rfl

theorem screen_executeSystem (m : Machine) (w a : UInt16) :
    (m.executeSystem w a).1.screen = m.screen ∨ (m.executeSystem w a).1.screen.dirty = true := by
  unfold executeSystem
  split
  · exact .inr rfl
  · left
    split
    · split
      · rfl
      · rfl
    · rfl

theorem screen_executeCall (m : Machine) (w a : UInt16) : (m.executeCall w a).1.screen = m.screen := by
  unfold executeCall
  split
  · rfl
  · rfl

/-- **Whoever changes the picture marks it.** -/
theorem screen_execute (m : Machine) (w a : UInt16) :
    (m.execute w a).1.screen = m.screen ∨ (m.execute w a).1.screen.dirty = true := by
  unfold execute
  split
  · exact screen_executeSystem m w a
  · exact .inl rfl
  · exact .inl (screen_executeCall m w a)
  · exact .inl (screen_skipIf m _)
  · exact .inl (screen_skipIf m _)
  · split
    · exact .inl (screen_skipIf m _)
    · exact .inl rfl
  · exact .inl rfl
  · exact .inl rfl
  · exact .inl (screen_executeArithmetic m w a)
  · split
    · exact .inl (screen_skipIf m _)
    · exact .inl rfl
  · exact .inl rfl
  · exact .inl rfl
  · exact .inl rfl
  · exact .inr rfl
  · exact .inl (screen_executeSkipKey m w a)
  · exact .inl (screen_executeDevice m w a)
  · exact .inl rfl

theorem screen_tick (m : Machine) : m.tick.1.screen = m.screen ∨ m.tick.1.screen.dirty = true := by
  by_cases hwait : m.wait = .none
  · have hexecute := screen_execute m.next m.nextWord m.pc
    rw [tick_eq_settle hwait]
    cases hstep : m.next.execute m.nextWord m.pc with
    | mk after fault =>
        rw [hstep] at hexecute
        cases fault with
        | none => exact hexecute
        | some f => exact hexecute
  · rw [tick_of_awaiting hwait]
    exact .inl rfl

/-! ### Ticks -/

/-- The machine behind a number of ticks. -/
def ticked (m : Machine) (k : Nat) : Machine := (fun n : Machine => n.tick.1)^[k] m

theorem ticked_succ (m : Machine) (k : Nat) : m.ticked (k + 1) = (m.ticked k).tick.1 :=
  Function.iterate_succ_apply' _ _ _

end Chip8.Machine
