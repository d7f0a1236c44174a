import Chip8.Proofs.Machine.Invariant
import Chip8.Proofs.Machine.Semantics

/-! # Ticks perform decoded instructions

The handlers of the machine do what the meaning of the decoded instruction says.

* **Numbers.** The arithmetic of bytes and words in the handlers is the arithmetic of numbers in the
  meaning; addresses behind the index do not overflow since the index has twelve bits.
* **Families.** There is one lemma for each handler that looks at more than the leading nibble, and
  `settle_execute` puts them together along the dispatch.
* `tick_eq_stepDecoded`: a machine that awaits nothing decodes and performs the word at its program
  counter. `tick_of_reachable` says so for every reachable machine. -/

namespace Chip8

open Instruction Word

namespace Machine

variable {c : Config} {m : Machine} {w : UInt16} {i : Instruction}

/-! ### Registers -/

theorem setReg_eq_put (m : Machine) (x : Reg) (b : UInt8) : m.setReg x b = m.put x b.toNat := by
  have hregisters : m.registers.set x b x.isLt =
      Vector.ofFn fun i : Reg => if i = x then b.toNat.toUInt8 else m.reg i := by
    apply Vector.ext
    intro j hj
    rw [Vector.getElem_ofFn, Vector.getElem_set]
    by_cases hjx : x.val = j
    · subst hjx
      rw [if_pos rfl, if_pos rfl]
      exact (UInt8.ofNat_toNat).symm
    · rw [if_neg hjx, if_neg fun h => hjx (Fin.ext_iff.mp h).symm]
      rfl
  rw [setReg, put, hregisters]

theorem reg_put (m : Machine) (x y : Reg) (number : Nat) :
    (m.put x number).reg y = if y = x then number.toUInt8 else m.reg y := by
  rw [reg, put]
  exact Vector.getElem_ofFn _

theorem put_put_flag (m : Machine) (x : Reg) (number flag : Nat) :
    (m.put x number).put Reg.flag flag = m.putFlagged x number flag := by
  have hregisters : (fun i => if i = Reg.flag then flag.toUInt8 else (m.put x number).reg i) =
      fun i => if i = Reg.flag then flag.toUInt8 else if i = x then number.toUInt8 else m.reg i := by
    funext i
    rw [reg_put]
  rw [put, hregisters]
  rfl

theorem setFlagged_eq_putFlagged (m : Machine) (x : Reg) (b flag : UInt8) :
    m.setFlagged x b flag = m.putFlagged x b.toNat flag.toNat := by
  rw [setFlagged, setReg_eq_put, setReg_eq_put, put_put_flag]

theorem put_mod (m : Machine) (x : Reg) (number : Nat) :
    m.put x (number % 0x100) = m.put x number := by
  have hbyte : (number % 0x100).toUInt8 = number.toUInt8 := UInt8.ofNat_mod_size
  rw [put, put, hbyte]

theorem putFlagged_mod (m : Machine) (x : Reg) (number flag : Nat) :
    m.putFlagged x (number % 0x100) flag = m.putFlagged x number flag := by
  have hbyte : (number % 0x100).toUInt8 = number.toUInt8 := UInt8.ofNat_mod_size
  rw [putFlagged, putFlagged, hbyte]

/-! ### Addresses -/

theorem word_eq_wordAt (m : Machine) (a : UInt16) : m.memory.word a = m.wordAt a.toNat := by
  have hhigh : (m.memory.byte a.toNat).toNat < 0x100 := UInt8.toNat_lt _
  have hlow : (m.memory.byte (a.toNat + 1)).toNat < 0x100 := UInt8.toNat_lt _
  rw [Memory.word, wordAt]
  apply UInt16.toNat_inj.mp
  rw [UInt16.toNat_add, UInt16.toNat_mul, UInt8.toNat_toUInt16, UInt8.toNat_toUInt16,
    Nat.toUInt16_eq, UInt16.toNat_ofNat']
  show (_ * 0x100 % 0x10000 + _) % 0x10000 = _
  omega

theorem wordAt_congr {a b : Nat} (h : a % m.memory.size = b % m.memory.size) :
    m.wordAt a = m.wordAt b := by
  have hnext : (a + 1) % m.memory.size = (b + 1) % m.memory.size := by
    rw [Nat.add_mod, h, ← Nat.add_mod]
  rw [wordAt, wordAt, Memory.byte_congr h, Memory.byte_congr hnext]

theorem word_offset (hc : c.check = .ok c) (h : Sound c m) (a : UInt16) (k : Nat) :
    m.memory.word (m.offset a k) = m.wordAt (a.toNat + k) := by
  rw [word_eq_wordAt, h.toNat_offset hc, ← h.memory]
  exact wordAt_congr (Nat.mod_mod _ _)

/-- A skip from behind the current word goes two words on. -/
theorem skipIf_next (hc : c.check = .ok c) (h : Sound c m) {b : Bool} {condition : Prop}
    [Decidable condition] (hb : b = true ↔ condition) :
    m.next.skipIf b = m.nextOrSkip condition := by
  have hpc : m.next.pc.toNat = (m.pc.toNat + 2) % c.memorySize := h.toNat_offset hc m.pc 2
  have hskip : (m.next.pc.toNat + 2) % m.memory.size = (m.pc.toNat + 4) % m.memory.size := by
    rw [hpc, h.memory, Nat.mod_add_mod]
  unfold skipIf nextOrSkip
  by_cases hcondition : condition
  · rw [if_pos (hb.mpr hcondition), if_pos hcondition]
    show m.jumpTo (m.next.pc.toNat + 2) = m.jumpTo (m.pc.toNat + 4)
    rw [jumpTo, hskip, jumpTo]
  · rw [if_neg (fun h => hcondition (hb.mp h)), if_neg hcondition]
    rfl

theorem toNat_index_add (h : Sound c m) {k : Nat} (hk : k < 0x10) :
    (m.index + k.toUInt16).toNat = m.index.toNat + k := by
  have hindex := h.index
  rw [UInt16.toNat_add, Nat.toUInt16_eq, UInt16.toNat_ofNat']
  omega

theorem read_index (h : Sound c m) {k : Nat} (hk : k < 0x10) :
    m.memory.read (m.index + k.toUInt16) = m.memory.byte (m.index.toNat + k) := by
  rw [Memory.read, toNat_index_add h hk]

/-! ### Bytes -/

theorem toNat_bit (condition : Prop) [Decidable condition] :
    (if condition then 1 else 0 : UInt8).toNat = if condition then 1 else 0 := by
  split
  · rfl
  · rfl

theorem toNat_carry (a b : UInt8) :
    (if 0x100 ≤ a.toNat + b.toNat then 1 else 0 : UInt8).toNat = (a.toNat + b.toNat) / 0x100 := by
  have ha := a.toNat_lt
  have hb := b.toNat_lt
  rw [toNat_bit]
  split
  · omega
  · omega

theorem toNat_noBorrow (a b : UInt8) :
    (if b ≤ a then 1 else 0 : UInt8).toNat = if b.toNat ≤ a.toNat then 1 else 0 :=
  toNat_bit (b ≤ a)

theorem toNat_difference (a b : UInt8) : (a - b).toNat = (a.toNat + 0x100 - b.toNat) % 0x100 := by
  have hb := b.toNat_lt
  have hcomm : 2 ^ 8 - b.toNat + a.toNat = a.toNat + 0x100 - b.toNat := by omega
  rw [UInt8.toNat_sub, hcomm]

theorem toNat_half (b : UInt8) : (b >>> 1).toNat = b.toNat / 2 := by
  rw [UInt8.toNat_shiftRight]
  exact Nat.shiftRight_eq_div_pow _ _

theorem toNat_lowBit (b : UInt8) : (b &&& 1).toNat = b.toNat % 2 := by
  rw [UInt8.toNat_and]
  exact Nat.and_one_is_mod _

theorem toNat_double (b : UInt8) : (b <<< 1).toNat = b.toNat * 2 % 0x100 := by
  rw [UInt8.toNat_shiftLeft]
  exact congrArg (· % 0x100) (Nat.shiftLeft_eq _ _)

theorem toNat_highBit (b : UInt8) : (b >>> 7).toNat = b.toNat / 0x80 := by
  rw [UInt8.toNat_shiftRight]
  exact Nat.shiftRight_eq_div_pow _ _

/-! ### Arithmetic -/

/-- The outcome of a tick, given that of the handler: after a fault the program counter stands at the
word again. -/
def settle (m : Machine) : Outcome → Outcome
  | (after, none) => (after, none)
  | (after, some f) => ({ after with pc := m.pc }, some f)

theorem settle_executeArithmetic (m : Machine) (w : UInt16) :
    m.settle (m.next.executeArithmetic w m.pc) = m.performDecoded w (decodeArithmetic w) := by
  unfold executeArithmetic
  fun_cases decodeArithmetic w
  all_goals simp only [*]
  · exact congrArg done (setReg_eq_put _ _ _)
  · refine congrArg done ?_
    rw [setReg_eq_put, UInt8.toNat_or]
    rfl
  · refine congrArg done ?_
    rw [setReg_eq_put, UInt8.toNat_and]
    rfl
  · refine congrArg done ?_
    rw [setReg_eq_put, UInt8.toNat_xor]
    rfl
  · refine congrArg done ?_
    rw [setFlagged_eq_putFlagged, toNat_carry, UInt8.toNat_add]
    exact putFlagged_mod _ _ _ _
  · refine congrArg done ?_
    rw [setFlagged_eq_putFlagged, toNat_noBorrow, toNat_difference]
    exact putFlagged_mod _ _ _ _
  · refine congrArg done ?_
    rw [setFlagged_eq_putFlagged, toNat_half, toNat_lowBit]
    rfl
  · refine congrArg done ?_
    rw [setFlagged_eq_putFlagged, toNat_noBorrow, toNat_difference]
    exact putFlagged_mod _ _ _ _
  · refine congrArg done ?_
    rw [setFlagged_eq_putFlagged, toNat_double, toNat_highBit]
    exact putFlagged_mod _ _ _ _
  · rfl

/-! ### Screen, stack and keys -/

theorem clear_screen (h : Sound c m) :
    m.screen.clear = Screen.blank m.config.screenWidth m.config.screenHeight := by
  have hwidth : m.screen.frame.width = c.screenWidth := congrArg Prod.fst h.screen
  have hheight : m.screen.frame.height = c.screenHeight :=
    congrArg (fun shape => shape.2.1) h.screen
  rw [Screen.clear, hwidth, hheight, h.config]

theorem jumpTo_of_lt {a : UInt16} (ha : a.toNat < m.memory.size) :
    m.jumpTo a.toNat = { m with pc := a } := by
  have hword : a.toNat.toUInt16 = a := UInt16.ofNat_toNat
  rw [jumpTo, Nat.mod_eq_of_lt ha, hword]

theorem settle_executeSystem (h : Sound c m) (w : UInt16) :
    m.settle (m.next.executeSystem w m.pc) = m.performDecoded w
      (if w = 0x00E0 then some .cls else if w = 0x00EE then some .ret else none) := by
  unfold executeSystem
  split
  · refine congrArg done ?_
    show { m.next with screen := m.screen.clear } = _
    rw [clear_screen h]
  · split
    · have hnext : m.next.stack = m.stack := rfl
      show m.settle _ = m.perform .ret
      unfold perform
      rw [hnext]
      cases hstack : m.stack with
      | nil => rfl
      | cons top rest =>
          have htop : top.toNat < c.memorySize := h.stack top (hstack ▸ List.mem_cons_self ..)
          rw [← h.memory] at htop
          exact congrArg done (jumpTo_of_lt (m := { m with stack := rest }) htop).symm
    · rfl

theorem settle_executeCall (m : Machine) (w : UInt16) :
    m.settle (m.next.executeCall w m.pc) = m.perform (.call (nnn w)) := by
  show m.settle (if m.stack.length = 16 then (m.next, some (.stackOverflow m.pc))
    else done ({ m with stack := m.next.pc :: m.stack }.jumpTo (nnn w).toNat)) = _
  unfold perform
  split
  · rfl
  · rfl

theorem settle_executeSkipKey (hc : c.check = .ok c) (h : Sound c m) (w : UInt16) :
    m.settle (m.next.executeSkipKey w m.pc) = m.performDecoded w
      (if kk w = 0x9E then some (.skp (x w))
        else if kk w = 0xA1 then some (.sknp (x w)) else none) := by
  unfold executeSkipKey
  dsimp only
  split
  · exact congrArg done (skipIf_next hc h Iff.rfl)
  · split
    · exact congrArg done (skipIf_next hc h (by rw [Bool.not_eq_true', Bool.not_eq_true]; rfl))
    · rfl

/-! ### Sprites -/

theorem sprite_eq_indexed (h : Sound c m) {height : Nat} (hheight : height ≤ 0x10) :
    m.sprite height = m.indexed height := by
  refine List.map_congr_left fun i hi => ?_
  exact read_index h (Nat.lt_of_lt_of_le (List.mem_range.mp hi) hheight)

theorem toNat_collision (collides : Bool) :
    (if collides then 1 else 0 : UInt8).toNat = collides.toNat := by
  cases collides with
  | false => rfl
  | true => rfl

theorem executeDraw_next (h : Sound c m) (w : UInt16) :
    done (m.next.executeDraw w) = m.perform (.drw (x w) (y w) (n w)) := by
  have hn : n w < 0x10 := Nat.mod_lt _ (by decide)
  have hsprite : m.next.sprite (n w) = m.indexed (n w) := sprite_eq_indexed h (Nat.le_of_lt hn)
  have hdraw : m.next.executeDraw w =
      let drawing := m.screen.draw (m.value (x w)) (m.value (y w)) (m.next.sprite (n w))
      { m.next with screen := drawing.1 }.setReg Reg.flag (if drawing.2 then 1 else 0) := rfl
  rw [hdraw, hsprite]
  dsimp only
  rw [setReg_eq_put, toNat_collision]
  rfl

/-! ### Timers -/

theorem decode_eq_seByte_iff {r : Reg} {k : UInt8} :
    decode w = some (.seByte r k) ↔ w.toNat = 0x3000 + 0x100 * r.val + k.toNat := by
  have hkk := toNat_kk w
  have hlt := w.toNat_lt
  constructor
  · intro h
    unfold decode decodeArithmetic decodeDevice at h
    repeat' split at h
    all_goals simp only [Option.some.injEq, seByte.injEq, reduceCtorEq] at h
    rename_i hfamily
    obtain ⟨rfl, rfl⟩ := h
    have hx : (x w).val = w.toNat / 0x100 % 16 := rfl
    unfold family at hfamily
    omega
  · intro h
    have hr := r.isLt
    have hk := k.toNat_lt
    have hfamily : family w = 3 := by
      unfold family
      omega
    have hx : x w = r := Fin.ext (by show w.toNat / 0x100 % 16 = r.val; omega)
    have hbyte : kk w = k := UInt8.toNat_inj.mp (by omega)
    unfold decode
    rw [hfamily, hx, hbyte]
    rfl

theorem decode_eq_jp_iff {a : UInt16} :
    decode w = some (.jp a) ↔ a.toNat < 0x1000 ∧ w.toNat = 0x1000 + a.toNat := by
  have hnnn := toNat_nnn w
  have hlt := w.toNat_lt
  constructor
  · intro h
    unfold decode decodeArithmetic decodeDevice at h
    repeat' split at h
    all_goals simp only [Option.some.injEq, jp.injEq, reduceCtorEq] at h
    rename_i hfamily
    obtain rfl := h
    unfold family at hfamily
    omega
  · rintro ⟨ha, h⟩
    have hfamily : family w = 1 := by
      unfold family
      omega
    have htarget : nnn w = a := UInt16.toNat_inj.mp (by omega)
    unfold decode
    rw [hfamily, htarget]
    rfl

theorem isDelayLoop_iff (hc : c.check = .ok c) (h : Sound c m) {x : Reg} :
    m.isDelayLoop m.pc x = true ↔ m.loopsOn x := by
  have hx := x.isLt
  have hpc : (m.pc.toNat % 0x1000).toUInt16.toNat = m.pc.toNat % 0x1000 := by
    rw [Nat.toUInt16_eq, UInt16.toNat_ofNat']
    omega
  have hskip : (0x3000 + x.val.toUInt16 * 0x100 : UInt16).toNat = 0x3000 + 0x100 * x.val := by
    rw [UInt16.toNat_add, UInt16.toNat_mul, Nat.toUInt16_eq, UInt16.toNat_ofNat']
    show (0x3000 + x.val % 0x10000 * 0x100 % 0x10000) % 0x10000 = _
    omega
  have hjump : (0x1000 + nnn m.pc : UInt16).toNat = 0x1000 + m.pc.toNat % 0x1000 := by
    rw [UInt16.toNat_add, toNat_nnn]
    show (0x1000 + m.pc.toNat % 0x1000) % 0x10000 = _
    omega
  rw [isDelayLoop, Bool.and_eq_true, decide_eq_true_iff, decide_eq_true_iff, word_offset hc h,
    word_offset hc h, loopsOn, decode_eq_seByte_iff, decode_eq_jp_iff, hpc,
    ← UInt16.toNat_inj, ← UInt16.toNat_inj, hskip, hjump]
  exact and_congr Iff.rfl ⟨fun h => ⟨Nat.mod_lt _ (by decide), h⟩, And.right⟩

theorem await_of_none {events : WaitFlags} (hwait : m.wait = .none) :
    m.await events = { m with wait := events } := by
  rw [await, hwait]
  rfl

theorem readDelay_next (hc : c.check = .ok c) (h : Sound c m) (hwait : m.wait = .none) (r : Reg) :
    done (m.next.readDelay r m.pc) = m.perform (.ldFromDelay r) := by
  have hloop : m.next.isDelayLoop m.pc r = true ↔ m.loopsOn r := isDelayLoop_iff hc h
  have hrunning : 0 < m.delay.value ↔ m.delay.value ≠ 0 := UInt8.pos_iff_ne_zero
  unfold readDelay perform
  dsimp only
  by_cases hpark : m.delay.value ≠ 0 ∧ m.loopsOn r
  · rw [if_pos hpark, if_pos ⟨hrunning.mpr hpark.1, hloop.mpr hpark.2⟩, setReg_eq_put]
    exact congrArg done (await_of_none hwait)
  · rw [if_neg hpark, if_neg fun hp => hpark ⟨hrunning.mp hp.1, hloop.mp hp.2⟩, setReg_eq_put]
    rfl

/-! ### Memory at the index -/

theorem eq_toUInt8 {b : UInt8} {number : Nat} (h : b.toNat = number) : b = number.toUInt8 := by
  rw [← h]
  exact UInt8.ofNat_toNat.symm

theorem digits_eq (b : UInt8) : [b / 100, b / 10 % 10, b % 10] =
    [b.toNat / 100, b.toNat / 10 % 10, b.toNat % 10].map Nat.toUInt8 := by
  have htens : (b / 10 % 10).toNat = b.toNat / 10 % 10 := by
    rw [UInt8.toNat_mod, UInt8.toNat_div]
    rfl
  have hhundreds : b / 100 = (b.toNat / 100).toUInt8 := eq_toUInt8 (UInt8.toNat_div b 100)
  have hones : b % 10 = (b.toNat % 10).toUInt8 := eq_toUInt8 (UInt8.toNat_mod b 10)
  rw [hhundreds, hones, eq_toUInt8 htens]
  rfl

theorem storeDecimal_next (hc : c.check = .ok c) (h : Sound c m) (r : Reg) :
    done (m.next.storeDecimal r) = m.perform (.ldDecimal r) := by
  have hroom : 3 ≤ m.memory.size := Nat.le_trans (by decide) (h.room hc)
  have hsecond : (m.index + 1).toNat = m.index.toNat + 1 := toNat_index_add h (k := 1) (by decide)
  have hthird : (m.index + 2).toNat = m.index.toNat + 2 := toNat_index_add h (k := 2) (by decide)
  have hstore : ∀ u v w : UInt8,
      ((m.memory.write m.index u).write (m.index + 1) v).write (m.index + 2) w =
        m.memory.overlay m.index.toNat [u, v, w] := by
    intro u v w
    have hfits : [u, v, w].length ≤ m.memory.size := hroom
    rw [← Memory.store_eq_overlay hfits, Memory.write, Memory.write, Memory.write, hsecond, hthird]
    rfl
  have hdecimal : m.next.storeDecimal r = { m.next with
      memory := ((m.memory.write m.index (m.reg r / 100)).write (m.index + 1)
        (m.reg r / 10 % 10)).write (m.index + 2) (m.reg r % 10) } := rfl
  refine congrArg done ?_
  rw [hdecimal, hstore, digits_eq]
  rfl

theorem upTo_eq_take (r : Reg) : upTo r = (List.finRange 16).take (r.val + 1) := by
  revert r
  decide

theorem map_reg_upTo (m : Machine) (r : Reg) :
    (upTo r).map m.reg = m.registers.toList.take (r.val + 1) := by
  have hall : m.registers.toList = (List.finRange 16).map m.reg := by
    apply List.ext_getElem
    · simp
    · intro j hj hj'
      simp [reg]
  rw [upTo_eq_take, List.map_take, hall]

theorem values_upTo (r : Reg) : (upTo r).map Fin.val = List.range' 0 (upTo r).length := by
  revert r
  decide

/-- Writing registers one by one, of which the numbers follow each other, is a store. -/
theorem foldl_write (h : Sound c m) {rs : List Reg} {k : Nat} (hk : k + rs.length ≤ 0x10)
    (hrs : rs.map Fin.val = List.range' k rs.length) (memory : Memory) :
    rs.foldl (fun memory (i : Reg) => memory.write (m.index + i.val.toUInt16) (m.reg i)) memory =
      memory.store (m.index.toNat + k) (rs.map m.reg) := by
  induction rs generalizing k memory with
  | nil => rfl
  | cons r rs ih =>
      rw [List.length_cons] at hk hrs
      rw [List.map_cons, List.range'_succ, List.cons.injEq] at hrs
      obtain ⟨hr, hrs⟩ := hrs
      have hcell : (m.index + r.val.toUInt16).toNat = m.index.toNat + k := by
        rw [toNat_index_add h r.isLt, hr]
      rw [List.foldl_cons, ih (by omega) hrs, List.map_cons, Memory.store, Memory.write, hcell,
        Nat.add_assoc]

theorem saveBlock_next (hc : c.check = .ok c) (h : Sound c m) (r : Reg) :
    done (m.next.saveBlock r) = m.perform (.save r) := by
  have hlength : (upTo r).length ≤ 0x10 := by
    rw [upTo_eq_take, List.length_take, List.length_finRange]
    exact Nat.min_le_right _ _
  have hroom : ((upTo r).map m.reg).length ≤ m.memory.size := by
    rw [List.length_map]
    exact Nat.le_trans hlength (h.room hc)
  have hstore := foldl_write h (k := 0) (by omega) (values_upTo r) m.memory
  rw [Nat.add_zero, Memory.store_eq_overlay hroom, map_reg_upTo] at hstore
  have hsave : m.next.saveBlock r = { m.next with
      memory := (upTo r).foldl
        (fun memory (i : Reg) => memory.write (m.index + i.val.toUInt16) (m.reg i)) m.memory
      }.passBlock r := rfl
  refine congrArg done ?_
  rw [hsave, hstore]
  rfl

theorem reg_setReg (m : Machine) (r i : Reg) (b : UInt8) :
    (m.setReg r b).reg i = if i = r then b else m.reg i := by
  rw [setReg_eq_put, reg_put]
  congr 1
  exact UInt8.ofNat_toNat

/-- Writing registers one by one gives those of the list their contents. -/
theorem foldl_setReg (f : Reg → UInt8) (rs : List Reg) (m : Machine) :
    rs.foldl (fun acc (i : Reg) => acc.setReg i (f i)) m =
      { m with registers := Vector.ofFn fun i => if rs.contains i then f i else m.reg i } := by
  induction rs generalizing m with
  | nil =>
      have hsame : m.registers = Vector.ofFn m.reg := by
        apply Vector.ext
        intro j hj
        rw [Vector.getElem_ofFn]
        rfl
      show m = { m with registers := Vector.ofFn m.reg }
      rw [← hsame]
  | cons r rs ih =>
      have hcontents : (fun i => if rs.contains i then f i else (m.setReg r (f r)).reg i) =
          fun i => if (r :: rs).contains i then f i else m.reg i := by
        funext i
        have hcons : (r :: rs).contains i = true ↔ i = r ∨ rs.contains i = true := by
          rw [List.contains_cons, Bool.or_eq_true, beq_iff_eq]
        rw [reg_setReg]
        by_cases hmem : rs.contains i = true
        · rw [if_pos hmem, if_pos (hcons.mpr (Or.inr hmem))]
        · by_cases hr : i = r
          · rw [if_neg hmem, if_pos hr, if_pos (hcons.mpr (Or.inl hr)), hr]
          · rw [if_neg hmem, if_neg hr, if_neg fun h => (hcons.mp h).elim hr hmem]
      rw [List.foldl_cons, ih, hcontents]
      rfl

theorem restoreBlock_next (h : Sound c m) (r : Reg) :
    done (m.next.restoreBlock r) = m.perform (.restore r) := by
  have hread : (fun (acc : Machine) (i : Reg) =>
        acc.setReg i (m.memory.read (m.index + i.val.toUInt16))) =
      fun acc i => acc.setReg i (m.memory.byte (m.index.toNat + i.val)) := by
    funext acc i
    rw [read_index h i.isLt]
  have hmem : ∀ i : Reg, (upTo r).contains i = true ↔ i ≤ r := fun i => by
    rw [List.contains_iff_mem, upTo, List.mem_filter, decide_eq_true_iff]
    exact and_iff_right (List.mem_finRange i)
  have hrestore : m.next.restoreBlock r = ((upTo r).foldl (fun acc (i : Reg) =>
      acc.setReg i (m.memory.read (m.index + i.val.toUInt16))) m.next).passBlock r := rfl
  refine congrArg done ?_
  rw [hrestore, hread, foldl_setReg]
  simp only [hmem]
  rfl

/-! ### Dispatch -/

theorem glyph_eq (b : UInt8) :
    (b % 16).toUInt16 * glyphHeight = (5 * (b.toNat % 16)).toUInt16 := by
  rw [← toNat_glyph]
  exact UInt16.ofNat_toNat.symm

theorem settle_executeDevice (hc : c.check = .ok c) (h : Sound c m) (hwait : m.wait = .none)
    (w : UInt16) : m.settle (m.next.executeDevice w m.pc) = m.performDecoded w (decodeDevice w) := by
  unfold executeDevice
  fun_cases decodeDevice w
  all_goals simp only [*]
  · exact readDelay_next hc h hwait (x w)
  · exact congrArg done (await_of_none hwait)
  · rfl
  · have hbeeping : decide (0 < m.reg (x w)) = decide (m.value (x w) ≠ 0) := by
      have hpos : 0 < m.reg (x w) ↔ m.value (x w) ≠ 0 := Nat.pos_iff_ne_zero
      exact decide_eq_decide.mpr hpos
    exact congrArg (fun b => done { m.next with sound := ⟨m.reg (x w)⟩, beeping := b }) hbeeping
  · rfl
  · refine congrArg done ?_
    rw [glyph_eq]
    rfl
  · exact storeDecimal_next hc h (x w)
  · exact saveBlock_next hc h (x w)
  · exact restoreBlock_next h (x w)
  · rfl

theorem toNat_offset_first (w : UInt16) (b : UInt8) :
    (nnn w + b.toUInt16).toNat = (nnn w).toNat + b.toNat := by
  have hnnn := toNat_nnn w
  have hb := b.toNat_lt
  rw [UInt16.toNat_add, UInt8.toNat_toUInt16]
  omega

/-- **Dispatch.** Decoding a word and picking its handler agree. -/
theorem settle_execute (hc : c.check = .ok c) (h : Sound c m) (hwait : m.wait = .none)
    (w : UInt16) : m.settle (m.next.execute w m.pc) = m.performDecoded w (decode w) := by
  have hequal : ∀ a b : UInt8, decide (a = b) = true ↔ a.toNat = b.toNat := fun a b =>
    decide_eq_true_iff.trans UInt8.toNat_inj.symm
  have hdiffer : ∀ a b : UInt8, decide (a ≠ b) = true ↔ a.toNat ≠ b.toNat := fun a b =>
    decide_eq_true_iff.trans (not_congr UInt8.toNat_inj.symm)
  -- The split is on the leading nibble, which then decides the decoder as well.
  unfold execute
  split
  all_goals
    unfold decode
    simp only [*]
  · exact settle_executeSystem h w
  · rfl
  · exact settle_executeCall m w
  · exact congrArg done (skipIf_next hc h (hequal _ _))
  · exact congrArg done (skipIf_next hc h (hdiffer _ _))
  · split
    · exact congrArg done (skipIf_next hc h (hequal _ _))
    · rfl
  · exact congrArg done (setReg_eq_put _ _ _)
  · refine congrArg done ?_
    rw [setReg_eq_put, UInt8.toNat_add]
    exact put_mod _ _ _
  · exact settle_executeArithmetic m w
  · split
    · exact congrArg done (skipIf_next hc h (hdiffer _ _))
    · rfl
  · rfl
  · refine congrArg done ?_
    show m.jumpTo (nnn w + (m.reg Reg.first).toUInt16).toNat = _
    rw [toNat_offset_first]
    rfl
  · refine congrArg done ?_
    unfold executeRandom
    rw [setReg_eq_put, UInt8.toNat_and]
    rfl
  · exact executeDraw_next h w
  · exact settle_executeSkipKey hc h w
  · exact settle_executeDevice hc h hwait w
  · rfl

/-! ### Ticks -/

theorem tick_eq_settle (hwait : m.wait = .none) :
    m.tick = m.settle (m.next.execute m.nextWord m.pc) := by
  have hempty : m.wait.isEmpty = true := WaitFlags.isEmpty_iff.mpr hwait
  have hnext : ({ m with pc := m.offset m.pc 2 } : Machine) = m.next := rfl
  unfold tick
  rw [if_pos hempty]
  dsimp only
  rw [hnext]
  cases m.next.execute m.nextWord m.pc with
  | mk after fault =>
      cases fault with
      | none => rfl
      | some f => rfl

/-- **Refinement.** A machine that awaits nothing decodes and performs the word at its program
counter. -/
theorem tick_eq_stepDecoded (hc : c.check = .ok c) (h : Sound c m) (hwait : m.wait = .none) :
    m.tick = m.stepDecoded := by
  have hword : m.nextWord = m.wordAt m.pc.toNat := word_eq_wordAt m m.pc
  rw [tick_eq_settle hwait, settle_execute hc h hwait, hword]
  rfl

/-- An instruction is never illegal. -/
theorem perform_ne_illegal (m : Machine) (i : Instruction) (a v : UInt16) :
    (m.perform i).2 ≠ some (.illegalInstruction a v) := by
  unfold perform done
  cases i
  all_goals
    dsimp only
    try split
    all_goals exact fun h => by cases h

theorem stepDecoded_illegal_iff {a v : UInt16} :
    m.stepDecoded.2 = some (.illegalInstruction a v) ↔
      decode (m.wordAt m.pc.toNat) = none ∧ a = m.pc ∧ v = m.wordAt m.pc.toNat := by
  unfold stepDecoded
  cases decode (m.wordAt m.pc.toNat) with
  | none =>
      show some (Fault.illegalInstruction m.pc (m.wordAt m.pc.toNat)) = _ ↔ _
      rw [Option.some.injEq, Fault.illegalInstruction.injEq]
      exact ⟨fun h => ⟨rfl, h.1.symm, h.2.symm⟩, fun h => ⟨h.2.1.symm, h.2.2.symm⟩⟩
  | some i => exact ⟨fun h => absurd h (perform_ne_illegal m i a v), fun h => by cases h.1⟩

/-- **Ticks of reachable machines.** The outcome of a tick is that of performing the decoded word, and
the fault of an illegal instruction means that the word cannot be decoded. -/
theorem tick_of_reachable (hc : c.check = .ok c) (h : Reachable c m) (hwait : m.wait = .none) :
    m.tick = m.stepDecoded ∧
      ∀ a v, m.tick.2 = some (.illegalInstruction a v) ↔
        decode (m.wordAt m.pc.toNat) = none ∧ a = m.pc ∧ v = m.wordAt m.pc.toNat := by
  have hstep : m.tick = m.stepDecoded := tick_eq_stepDecoded hc (sound_of_reachable hc h) hwait
  refine ⟨hstep, fun a v => ?_⟩
  rw [hstep]
  exact stepDecoded_illegal_iff

end Machine

/-- The smallest memory, with the program counter on the glyph of the digit one. -/
def Config.glyphOne : Config := ⟨80, 8, 1, 5⟩

/-- The glyph calls the address `0x060`, which is address 16 of the smallest memory. -/
theorem tick_of_reachable_glyphOne :
    Config.glyphOne.check = .ok Config.glyphOne ∧ Reachable .glyphOne (Machine.new .glyphOne) ∧
      (Machine.new .glyphOne).wait = .none ∧
      (Machine.new .glyphOne).tick = (Machine.new .glyphOne).perform (.call 0x060) := by
  have hc : Config.glyphOne.check = .ok Config.glyphOne := rfl
  have hstep := (Machine.tick_of_reachable hc .new rfl).1
  have hword : decode ((Machine.new .glyphOne).wordAt (Machine.new .glyphOne).pc.toNat) =
      some (.call 0x060) := by decide +kernel
  rw [Machine.stepDecoded, hword] at hstep
  exact ⟨hc, .new, rfl, hstep⟩

end Chip8
