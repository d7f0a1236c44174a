import Chip8.Proofs.Emulator.Telling
import Chip8.Proofs.Machine.Reset

/-! # Restoring

A reset brings an emulator back to where its binary was just loaded, whatever happened before.

* **Binaries.** `Record.binary?` is the last binary that was loaded and fitted into the memory. That is what
  the emulator remembers (`Restorable.program`).
* **Machines.** Tasks operate on the machine as callers can. Then it keeps the invariant of reachable
  machines, its size of memory above all (`Restorable.sound`), so that a binary that was loaded once can
  be loaded again (`reload_of_restored`).
* **Resets** are `reset_restores`. -/

namespace Chip8

variable {c : Config} {m n : Machine} {address : UInt16} {bytes : List UInt8}

/-! ### Machines -/

theorem Machine.load_of_fits (h : bytes.length ≤ m.memory.size) (address : UInt16) :
    m.load address bytes = .ok { m with memory := m.memory.store address.toNat bytes } := by
  unfold Machine.load
  rw [Memory.load, if_neg (by omega)]
  rfl

theorem Machine.load_of_too_large (h : m.memory.size < bytes.length) (address : UInt16) :
    m.load address bytes = .error (.tooLarge bytes.length m.memory.size) := by
  unfold Machine.load
  rw [Memory.load, if_pos h]
  rfl

theorem Sound.load (h : Sound c m) (hload : m.load address bytes = .ok n) : Sound c n := by
  by_cases hfits : bytes.length ≤ m.memory.size
  · rw [Machine.load_of_fits hfits] at hload
    obtain rfl := Except.ok.inj hload
    exact h.with_memory (Memory.size_store _ _ _)
  · rw [Machine.load_of_too_large (by omega)] at hload
    cases hload

/-- The invariant does not depend on whether the picture was taken. -/
theorem Sound.of_unmarked (h : Sound c m.unmarked) : Sound c m :=
  ⟨h.config, h.memory, h.screen, h.pc, h.index, h.depth, h.stack, h.wait, h.beeping⟩

theorem Sound.congr_unmarked (h : m.unmarked = n.unmarked) (hn : Sound c n) : Sound c m := by
  refine Sound.of_unmarked ?_
  rw [h]
  exact hn.with_screen hn.screen

/-! ### Binaries -/

/-- The binary that an act loads into a memory of this size, if it fits. -/
def Act.binary? (size : Nat) : Act → Option (UInt16 × List UInt8)
  | obey (.load address bytes) => if bytes.length ≤ size then some (address, bytes) else none
  | _ => none

/-- The binary loaded last into a memory of this size, of those that fit. -/
def Record.binary? (size : Nat) (r : Record) : Option (UInt16 × List UInt8) :=
  (r.filterMap fun p => p.2.binary? size).getLast?

theorem Record.binary?_append_singleton (size : Nat) (r : Record) (x : Emulator) (a : Act) :
    Record.binary? size (r ++ [(x, a)]) = (a.binary? size).or (r.binary? size) := by
  unfold Record.binary?
  rw [List.filterMap_append, List.getLast?_append]
  cases hbinary : a.binary? size with
  | none => simp [hbinary]
  | some binary => simp [hbinary]

theorem Record.fits_of_binary? {size : Nat} {r : Record}
    (h : r.binary? size = some (address, bytes)) : bytes.length ≤ size := by
  obtain ⟨⟨x, a⟩, -, ha⟩ := List.mem_filterMap.mp (List.mem_of_getLast? h)
  dsimp only at ha
  unfold Act.binary? at ha
  split at ha
  · split at ha
    · rename_i hfits
      obtain ⟨-, rfl⟩ := Prod.mk.inj (Option.some.inj ha)
      exact hfits
    · cases ha
  · cases ha

/-- Tasks did nothing to a machine but what callers can do to it. -/
def Record.Operates (r : Record) : Prop :=
  ∀ x task, (x, Act.obey (.run task)) ∈ r → ∃ ops, (task x.machine).1 = x.machine.run ops

/-- The machine is new, but for a binary that was loaded into it. -/
def Restored (c : Config) : Option (UInt16 × List UInt8) → Machine → Prop
  | none, m => m = Machine.new c
  | some (address, bytes), m => (Machine.new c).load address bytes = .ok m

theorem exists_restored {binary : Option (UInt16 × List UInt8)}
    (hfits : ∀ address bytes, binary = some (address, bytes) → bytes.length ≤ c.memorySize) :
    ∃ m, Restored c binary m := by
  have hsize : (Machine.new c).memory.size = c.memorySize := Memory.size_blank _
  cases binary with
  | none => exact ⟨_, rfl⟩
  | some binary =>
      obtain ⟨address, bytes⟩ := binary
      exact ⟨_, Machine.load_of_fits (by rw [hsize]; exact hfits address bytes rfl) address⟩

theorem Restored.wait {binary : Option (UInt16 × List UInt8)} (hm : Restored c binary m) : m.wait = .none := by
  cases binary with
  | none => rw [show m = Machine.new c from hm]; rfl
  | some binary =>
      obtain ⟨memory, rfl⟩ := Machine.load_eq_ok hm
      rfl

namespace Breakpoints

theorem get?_clearTemporary (bs : Breakpoints) (b : Breakpoint) :
    bs.clearTemporary.get? b = if b.temporary then .none else bs.get? b := by
  unfold clearTemporary get?
  rw [List.find?_filter]
  split
  · rename_i htemporary
    rw [List.find?_eq_none.mpr]
    · rfl
    · intro entry _
      by_cases hentry : entry.1 = b
      · simp [hentry, htemporary]
      · simp [hentry]
  · rename_i hpersistent
    congr 2
    funext entry
    by_cases hentry : entry.1 = b
    · simp [hentry, hpersistent]
    · simp [hentry]

end Breakpoints

namespace Emulator

variable {e x : Emulator} {a : Act} {cmd : Command} {config : EmulatorConfig}
  {observers : Observers} {before : Record}

/-! ### One act -/

theorem sound_reloaded (h : Sound c x.machine) : Sound c x.reloaded := by
  rcases x.reloaded_cases with hsame | ⟨address, bytes, hload⟩
  · rwa [hsame]
  · exact h.load hload

/-- Commands keep the invariant of reachable machines if tasks do. -/
theorem sound_obeyed (hc : c.check = .ok c) (h : Sound c x.machine)
    (htask : ∀ task, cmd = .run task → ∃ ops, (task x.machine).1 = x.machine.run ops) :
    Sound c (x.obeyed cmd).machine := by
  cases cmd with
  | start | stop =>
      dsimp only [obeyed]
      split
      · exact h
      · exact h
  | step => exact h.tick hc
  | reset => exact sound_reloaded (h.reset hc)
  | run task =>
      obtain ⟨ops, hops⟩ := htask task rfl
      show Sound c (task x.machine).1
      rw [hops]
      exact h.run hc ops
  | keyDown key => exact (h.apply hc (.holdKey key)).keyPressed key
  | keyUp key => exact (h.apply hc (.letGoKey key)).keyReleased key
  | pulse => exact h.pulse
  | load address bytes =>
      dsimp only [obeyed]
      split
      · rename_i hload
        exact h.load hload
      · exact h
  | terminate | changeBreakpoints change | setSpeed speed => exact h

theorem sound_perform (hc : c.check = .ok c) (h : Sound c x.machine)
    (htask : ∀ task, a = .obey (.run task) → ∃ ops, (task x.machine).1 = x.machine.run ops) :
    Sound c (a.perform x).1.machine := by
  cases x.act_cases a with
  | obeys cmd hsame _ =>
      refine .congr_unmarked (machine_of_unmarked hsame) (sound_obeyed hc h ?_)
      rintro task rfl
      exact htask task rfl
  | pauses b _ hsame _ => exact .congr_unmarked (machine_of_unmarked hsame) h
  | executes _ _ hsame _ => exact .congr_unmarked (machine_of_unmarked hsame) (h.tick hc)
  | faults f _ _ hsame _ => exact .congr_unmarked (machine_of_unmarked hsame) h
  | leaves _ _ => exact h

/-- Only a load that fits changes what the emulator remembers. -/
theorem program_perform (x : Emulator) (a : Act) :
    (a.perform x).1.program = (a.binary? x.machine.memory.size).or x.program := by
  cases x.act_cases a with
  | obeys cmd hsame _ =>
      refine (program_of_unmarked hsame).trans ?_
      cases cmd with
      | start | stop =>
          dsimp only [obeyed]
          split
          · rfl
          · rfl
      | load address bytes =>
          dsimp only [obeyed, Act.binary?]
          by_cases hfits : bytes.length ≤ x.machine.memory.size
          · rw [Machine.load_of_fits hfits, if_pos hfits]
            rfl
          · rw [Machine.load_of_too_large (by omega), if_neg hfits]
            rfl
      | step | reset | terminate | run task | changeBreakpoints change | keyDown key | keyUp key
      | pulse | setSpeed speed => rfl
  | pauses b _ hsame _ => exact (program_of_unmarked hsame).trans rfl
  | executes _ _ hsame _ => exact (program_of_unmarked hsame).trans rfl
  | faults f _ _ hsame _ => exact (program_of_unmarked hsame).trans rfl
  | leaves _ _ => rfl

/-! ### Histories -/

/-- What a reset relies on. -/
structure Restorable (c : Config) (before : Record) (e : Emulator) : Prop where
  sound : Sound c e.machine
  program : e.program = before.binary? c.memorySize

theorem Restorable.perform (hc : c.check = .ok c) (h : Restorable c before x)
    (htasks : Record.Operates (before ++ [(x, a)])) :
    Restorable c (before ++ [(x, a)]) (a.perform x).1 := by
  refine ⟨sound_perform hc h.sound ?_, ?_⟩
  · rintro task rfl
    exact htasks x task (by simp)
  · rw [program_perform, h.sound.memory, h.program, Record.binary?_append_singleton]

/-- **Wherever a history stands** an emulator can be reset. -/
theorem restorable_of_passed (hc : config.machine.check = .ok config.machine)
    (h : Passed config observers before e) :
    before.Operates → Restorable config.machine before e := by
  refine h.induction (P := fun before e => before.Operates → Restorable config.machine before e)
    ?new ?act ?between
  case new => exact fun _ => ⟨Sound.new hc, rfl⟩
  case act =>
    intro before x a _ ih htasks
    refine (ih ?_).perform hc htasks
    intro y task hmem
    exact htasks y task (List.mem_append_left _ hmem)
  case between =>
    intro before x queue clock _ ih htasks
    exact ⟨(ih htasks).sound, (ih htasks).program⟩

/-! ### Resets -/

/-- The binary that is remembered is loaded again without a failure. -/
theorem reload_of_restored (hreset : e.machine.reset = Machine.new c)
    (hm : Restored c e.program m) :
    { e with machine := e.machine.reset }.reload = ({ e with machine := m }, []) := by
  unfold reload
  rw [hreset]
  dsimp only
  cases hprogram : e.program with
  | none =>
      rw [hprogram] at hm
      rw [show m = Machine.new c from hm]
  | some program =>
      rw [hprogram] at hm
      obtain ⟨address, bytes⟩ := program
      have hload : (Machine.new c).load address bytes = .ok m := hm
      dsimp only
      rw [hload]

/-- **A reset restores** what the emulator was like when its binary was loaded. Wherever a history stands in
which tasks have done to the machine only what callers can do:

* behind a reset the machine is a new one with the last binary that fitted loaded into it, apart from
  whether the picture was taken, and loading that again never fails;
* the emulator is stopped, and neither queue nor machine await anything;
* no temporary breakpoint is left, and persistent ones are as they were, enabled or not;
* a binary that does not fit is refused and changes nothing. -/
theorem reset_restores (hc : config.machine.check = .ok config.machine)
    (h : Passed config observers before e) (htasks : before.Operates) :
    (∃ m, Restored config.machine (before.binary? config.machine.memorySize) m ∧
      { e with machine := e.machine.reset }.reload = ({ e with machine := m }, []) ∧
      (e.apply .reset).1.machine.unmarked = m.unmarked) ∧
    (e.apply .reset).1.run = .stopped ∧
    (e.apply .reset).1.queue.wait = .none ∧ (e.apply .reset).1.machine.wait = .none ∧
    (∀ b, (e.apply .reset).1.breakpoints.get? b =
      if b.temporary then none else e.breakpoints.get? b) ∧
    ∀ address bytes, config.machine.memorySize < bytes.length →
      e.apply (.load address bytes) =
        (e, [.loaded (.error (.tooLarge bytes.length config.machine.memorySize))]) := by
  have hrestorable := restorable_of_passed hc h htasks
  have hsame : (e.apply .reset).1.unmarked = (e.obeyed .reset).unmarked := unmarked_apply e .reset
  obtain ⟨m, hm⟩ : ∃ m, Restored config.machine (before.binary? config.machine.memorySize) m :=
    exists_restored fun _ _ => Record.fits_of_binary?
  have hreload : { e with machine := e.machine.reset }.reload = ({ e with machine := m }, []) := by
    rw [← hrestorable.program] at hm
    exact reload_of_restored hrestorable.sound.reset_eq_new hm
  have hmachine : (e.obeyed .reset).machine = m := by
    have hfst := fst_reload { e with machine := e.machine.reset }
    rw [hreload] at hfst
    exact (congrArg machine hfst).symm
  have hmachine' : (e.apply .reset).1.machine.unmarked = m.unmarked := by
    rw [machine_of_unmarked hsame, hmachine]
  refine ⟨⟨m, hm, hreload, hmachine'⟩, ?_, ?_, ?_, ?_, ?_⟩
  · rw [run_of_unmarked hsame]
    rcases (faithful_of_passed h).run with hrun | hrun
    · simp [obeyed, hrun]
    · simp [obeyed, hrun]
  · rw [queue_of_unmarked hsame]
    rfl
  · rw [← Machine.wait_unmarked, hmachine', Machine.wait_unmarked]
    exact hm.wait
  · intro b
    rw [breakpoints_of_unmarked hsame]
    exact Breakpoints.get?_clearTemporary e.breakpoints b
  · intro address bytes hlarge
    rw [← hrestorable.sound.memory] at hlarge ⊢
    show e.load address bytes = _
    unfold load
    rw [Machine.load_of_too_large hlarge]

/-- A task that moves the machine elsewhere and then fails. -/
def astray : Task := fun m => (m.setPc 20, .error "astray")

/-- A load, one of a binary that does not fit, a task that fails, two breakpoints at one address and a
start. -/
def straying : List Move :=
  [.submit (.load 16 [0x60, 0x01]), .round, .submit (.load 16 (List.replicate 81 0)), .round,
    .submit (.run astray), .round, .submit (.changeBreakpoints (.add ⟨16, true⟩ true)), .round,
    .submit (.changeBreakpoints (.add ⟨16, false⟩ false)), .round, .submit .start, .round]

set_option maxRecDepth 4000 in
theorem operates_straying : (record ((new ⟨.glyphOne, 1, none⟩ .none).rounds straying)).Operates := by
  have hacts : (record ((new ⟨.glyphOne, 1, none⟩ .none).rounds straying)).map Prod.snd =
      [.obey (.load 16 [0x60, 0x01]), .obey (.load 16 (List.replicate 81 0)), .obey (.run astray),
        .obey (.changeBreakpoints (.add ⟨16, true⟩ true)),
        .obey (.changeBreakpoints (.add ⟨16, false⟩ false)), .obey .start] := rfl
  intro x task hmem
  have hact := List.mem_map_of_mem (f := Prod.snd) hmem
  rw [hacts] at hact
  obtain rfl : task = astray := by simpa using hact
  exact ⟨[.setPc 20], rfl⟩

set_option maxRecDepth 4000 in
theorem reset_restores_straying :
    ((new ⟨.glyphOne, 1, none⟩ .none).after straying).run = .running ∧
      (((new ⟨.glyphOne, 1, none⟩ .none).after straying).apply .reset).1.run = .stopped ∧
      (((new ⟨.glyphOne, 1, none⟩ .none).after straying).apply .reset).1.breakpoints.get? ⟨16, true⟩ =
        none ∧
      (((new ⟨.glyphOne, 1, none⟩ .none).after straying).apply .reset).1.breakpoints.get? ⟨16, false⟩ =
        some false ∧
      ∃ m, (Machine.new .glyphOne).load 16 [0x60, 0x01] = .ok m ∧
        (((new ⟨.glyphOne, 1, none⟩ .none).after straying).apply .reset).1.machine.unmarked =
          m.unmarked := by
  have hpassed : Passed ⟨.glyphOne, 1, none⟩ .none
      (record ((new ⟨.glyphOne, 1, none⟩ .none).rounds straying))
      ((new ⟨.glyphOne, 1, none⟩ .none).after straying) := .between straying
  obtain ⟨⟨m, hm, -, hmachine⟩, hrun, -, -, hbreakpoints, -⟩ :=
    reset_restores rfl hpassed operates_straying
  have hrunning : ((new ⟨.glyphOne, 1, none⟩ .none).after straying).run = .running := by
    decide +kernel
  have hset : ((new ⟨.glyphOne, 1, none⟩ .none).after straying).breakpoints.get? ⟨16, false⟩ =
      some false := by decide +kernel
  have hbinary : (record ((new ⟨.glyphOne, 1, none⟩ .none).rounds straying)).binary? 80 =
      some (16, [0x60, 0x01]) := by decide +kernel
  rw [show Config.glyphOne.memorySize = 80 from rfl, hbinary] at hm
  exact ⟨hrunning, hrun, hbreakpoints ⟨16, true⟩, (hbreakpoints ⟨16, false⟩).trans hset, m, hm,
    hmachine⟩

end Emulator

end Chip8
