import Chip8.Proofs.Machine.CallHistory

/-! # Reset

A reset leaves nothing of what was done to a machine before it.

* **Places.** The call stack lies in sixteen places. A return changes none of them, so that old return
  addresses stay behind in the places that are free again. `Stored` is a machine together with all of
  its places, and `Stored.Holds` says that the used ones hold the call stack (`holds_run`).
* **Memory.** `byte_blank` gives every cell of a memory behind a reset.
* **Answers.** `Operation.answer` is what an operation tells the one who asks for it, and
  `Stored.record` the answers and the states of a run.
* `reset_erases_history` puts this together: a machine behind a reset is the new machine, whatever was
  done to it, so that two histories cannot be told apart behind it. -/

namespace Chip8

/-! ### Places of the call stack -/

/-- A machine together with the places that its call stack lies in, the used ones and the others. -/
structure Stored where
  machine : Machine
  places : Vector UInt16 16
deriving DecidableEq

namespace Stored

variable {c : Config} {s : Stored} {op : Operation}

/-- A machine in its initial state. -/
def new (c : Config) : Stored := ⟨Machine.new c, Vector.replicate 16 0⟩

/-- The state behind an operation. A call writes its return address to the first free place, a reset
clears all places, and nothing else writes to one. -/
def apply (s : Stored) (op : Operation) : Stored where
  machine := op.apply s.machine
  places :=
    if op = .reset then Vector.replicate 16 0
    else match op.callEvents s.machine with
      | [.call a] => s.places.setIfInBounds s.machine.sp (s.machine.offset a 2)
      | _ => s.places

/-- The state behind a run. -/
def run (s : Stored) (ops : List Operation) : Stored := ops.foldl apply s

/-- The used places hold the call stack, the oldest return address in the first one. -/
def Holds (s : Stored) : Prop :=
  ∀ i (hi : i < 16), i < s.machine.sp → s.machine.stack.reverse[i]? = some s.places[i]

@[simp] theorem machine_apply (s : Stored) (op : Operation) :
    (s.apply op).machine = op.apply s.machine := rfl

@[simp] theorem machine_run (s : Stored) (ops : List Operation) :
    (s.run ops).machine = s.machine.run ops := by
  induction ops generalizing s with
  | nil => rfl
  | cons op ops ih => exact ih (s.apply op)

theorem places_of_callEvents (hreset : op ≠ .reset)
    (hevents : ∀ a, op.callEvents s.machine ≠ [.call a]) : (s.apply op).places = s.places := by
  unfold apply
  dsimp only
  rw [if_neg hreset]
  split
  · rename_i a ha
    exact absurd ha (hevents a)
  · rfl

theorem places_of_call (hreset : op ≠ .reset) {a : UInt16}
    (hevents : op.callEvents s.machine = [.call a]) :
    (s.apply op).places = s.places.setIfInBounds s.machine.sp (s.machine.offset a 2) := by
  simp only [apply, if_neg hreset, hevents]

theorem holds_new (c : Config) : (new c).Holds := fun i _ h => absurd h (Nat.not_lt_zero i)

/-- **One operation** keeps the call stack in its places. -/
theorem holds_apply (hc : c.check = .ok c) (h : Sound c s.machine) (hs : s.Holds) (op : Operation) :
    (s.apply op).Holds := by
  intro i hi hused
  have hafter := (h.apply hc op).depth
  simp only [machine_apply, Machine.sp] at hused ⊢
  by_cases hreset : op = .reset
  · subst hreset
    exact absurd hused (Nat.not_lt_zero i)
  obtain ⟨hevents, hstack⟩ | ⟨hevents, hstack⟩ | ⟨hevents, _, _, hstack⟩ :=
    Machine.callEvents_cases hc h hreset
  · have hplaces : (s.apply op).places = s.places := places_of_callEvents hreset (by simp [hevents])
    rw [hstack] at hused
    simp only [hstack, hplaces]
    exact hs i hi hused
  · have hreturn : s.machine.offset s.machine.pc 2 = returnAddress c s.machine.pc := by
      rw [returnAddress, Machine.offset, Memory.wrap, h.memory]
    rw [hstack] at hafter hused ⊢
    simp only [List.length_cons] at hafter hused
    simp only [places_of_call hreset hevents, hreturn, List.reverse_cons]
    by_cases hlast : i = s.machine.sp
    · subst hlast
      simp [Machine.sp]
    · have hbelow : i < s.machine.stack.length := by
        simp only [Machine.sp] at hlast
        omega
      rw [List.getElem?_append_left (by simpa using hbelow), hs i hi hbelow]
      simp [Ne.symm hlast]
  · have hplaces : (s.apply op).places = s.places := places_of_callEvents hreset (by simp [hevents])
    have hbelow := hs i hi (by rw [Machine.sp, hstack, List.length_cons]; omega)
    rw [hstack, List.reverse_cons, List.getElem?_append_left (by simpa using hused)] at hbelow
    simp only [hplaces]
    exact hbelow

/-- **Runs** keep it there, from a new machine on. -/
theorem holds_run (hc : c.check = .ok c) (h : Sound c s.machine) (hs : s.Holds)
    (ops : List Operation) : (s.run ops).Holds := by
  induction ops generalizing s with
  | nil => exact hs
  | cons op ops ih => exact ih (h.apply hc op) (holds_apply hc h hs op)

end Stored

/-! ### Memory behind a reset -/

/-- A blank memory holds the font and zeros behind it. -/
theorem Memory.byte_blank {n a : Nat} (hn : 80 ≤ n) (ha : a < n) :
    (blank n).byte a = glyphs.getD a 0 := by
  have hsize : (Memory.mk (Array.replicate n 0)).size = n := Array.size_replicate
  have hglyphs : glyphs.length = 80 := rfl
  have hdistance : (Memory.mk (Array.replicate n 0)).distance 0 a = a := by
    simp [distance, wrap, hsize, Nat.mod_eq_of_lt ha]
  have hzero : (Memory.mk (Array.replicate n 0)).byte a = 0 := by
    rw [byte_of_lt (by simpa using ha)]
    simp
  rw [blank, store_eq_overlay (by omega), byte_overlay (by omega), hdistance, hzero]
  simp [List.getD]

/-! ### Answers -/

/-- What an operation tells the one who asks for it. -/
inductive Answer where
  | nothing
  | executed (fault : Option Fault)
  | loaded (result : Except LoadError Unit)
  | drawn (collides : Bool)
  | taken (frame : Frame)

/-- The answer of an operation. -/
def Operation.answer (m : Machine) : Operation → Answer
  | tick => .executed m.tick.2
  | load a source => .loaded ((m.memory.loadFrom a source).map fun _ => ())
  | draw x y sprite => .drawn (m.screen.draw x y sprite).2
  | takeFrame => .taken m.takeFrame.1
  | _ => .nothing

/-- The answers of a run, each with the state behind its operation. -/
def Stored.record (s : Stored) : List Operation → List (Answer × Stored)
  | [] => []
  | op :: ops => (op.answer s.machine, s.apply op) :: (s.apply op).record ops

/-! ### Reset -/

/-- Every part of a machine is brought back. Memory and screen keep the sizes that they have, which are
those of the configuration. -/
theorem Sound.reset_eq_new {c : Config} {m : Machine} (h : Sound c m) : m.reset = Machine.new c := by
  have hwidth : m.screen.frame.width = c.screenWidth := congrArg Prod.fst h.screen
  have hheight : m.screen.frame.height = c.screenHeight :=
    congrArg (fun shape => shape.2.1) h.screen
  simp only [Machine.reset, Machine.new, h.config, Memory.reset, h.memory, Screen.clear, hwidth,
    hheight]

/-- **Reset.** Whatever was done to a machine, a reset makes a new one of it: all its parts, old return
addresses included, are those of the new machine, whose memory holds the font and zeros. So whatever
is done behind a reset has the same answers and leads to the same states, whatever was done before. -/
theorem reset_erases_history {c : Config} (hc : c.check = .ok c) :
    (∀ past : List Operation,
      ((Stored.new c).run past).machine = (Machine.new c).run past ∧
        ((Stored.new c).run past).Holds ∧
        ((Stored.new c).run past).apply .reset = Stored.new c) ∧
      (Machine.new c).memory.size = c.memorySize ∧
      (∀ a < c.memorySize, (Machine.new c).memory.byte a = glyphs.getD a 0) ∧
      ∀ past past' ops : List Operation,
        (((Stored.new c).run past).apply .reset).record ops =
          (((Stored.new c).run past').apply .reset).record ops := by
  have hnew : Sound c (Stored.new c).machine := Sound.new hc
  have hreset : ∀ past, ((Stored.new c).run past).apply .reset = Stored.new c := by
    intro past
    have hsound : Sound c ((Stored.new c).run past).machine := by
      rw [Stored.machine_run]
      exact hnew.run hc past
    exact congrArg (Stored.mk · _) hsound.reset_eq_new
  refine ⟨fun past => ⟨?_, ?_, hreset past⟩, Memory.size_blank _, fun a ha => ?_, ?_⟩
  · rw [Stored.machine_run]
    rfl
  · exact Stored.holds_run hc hnew (Stored.holds_new c) past
  · exact Memory.byte_blank (memorySize_of_check hc).1 ha
  · intro past past' ops
    rw [hreset past, hreset past']

/-- The glyph of the digit one calls a subroutine that returns at once, and its picture is taken. -/
def callAndReturn : List Operation :=
  [.write 16 0x00, .write 17 0xEE, .tick, .tick, .takeFrame]

theorem reset_erases_history_callAndReturn :
    Config.glyphOne.check = .ok .glyphOne ∧
      ((Stored.new .glyphOne).run callAndReturn).machine.stack = [] ∧
      ((Stored.new .glyphOne).run callAndReturn).places[0] = 7 ∧
      ((Stored.new .glyphOne).run callAndReturn).machine.screen.dirty = false ∧
      ((Stored.new .glyphOne).run callAndReturn).apply .reset = Stored.new .glyphOne := by
  have hc : Config.glyphOne.check = .ok .glyphOne := rfl
  obtain ⟨hruns, _⟩ := reset_erases_history hc
  obtain ⟨_, _, hreset⟩ := hruns callAndReturn
  exact ⟨hc, by decide +kernel, by decide +kernel, by decide +kernel, hreset⟩

end Chip8
