import Chip8.Proofs.Machine.Options
import Chip8.Proofs.Machine.Packing
import Chip8.Proofs.Machine.Safety

/-! # Area

The check of a configuration looks at the sides of the picture one by one, a machine multiplies them.

* **Buffers.** The bytes of a picture have a place for each of its pixels (`Whole.locate_lt`).
* **Wrapped areas.** Where a size does not count the pixels, the product that is left after wrapping
  makes a buffer that is too small for them (`exists_outside`).
* **Machines.** A new machine traps exactly there (`new_eq_none_iff`).
* `area_exact`: of the configurations that a text can describe, the machines are those whose area a
  size counts. Not all of them are (`area_beyond_sizes`). -/

namespace Chip8

/-- The number of pixels of a machine. -/
def Config.area (c : Config) : Nat := c.screenWidth * c.screenHeight

namespace Bitmap

variable {width height : Nat}

/-! ### Buffers -/

/-- Every pixel has a byte. -/
theorem Whole.locate_lt {b : Bitmap} (h : b.Whole) (x y : Nat) :
    (b.locate x y).1 < b.bytes.size :=
  h.byte_lt (Frame.place_lt (Nat.mod_lt _ h.width) (Nat.mod_lt _ h.height))

theorem whole_blank {c : Config} (hc : c.Possible) :
    (blank c.screenWidth c.screenHeight).Whole where
  width := hc.width
  aligned := hc.aligned
  height := hc.height
  bytes := Array.size_replicate

/-! ### Wrapped areas -/

/-- A picture with no pixel set whose area is counted by a size that wraps. -/
def wrapped (width height : Nat) : Bitmap :=
  ⟨width, height, Array.replicate (width * height % sizeLimit / 8) 0⟩

theorem size_wrapped : (wrapped width height).bytes.size = width * height % sizeLimit / 8 :=
  Array.size_replicate

/-- Where nothing is lost by wrapping, the picture is a blank one. -/
theorem wrapped_eq_blank (harea : width * height < sizeLimit) :
    wrapped width height = blank width height := by
  rw [wrapped, blank, Nat.mod_eq_of_lt harea]

/-- The last pixel that a size can number is in the picture, and its byte is not in the buffer. -/
theorem exists_outside (harea : sizeLimit ≤ width * height) :
    ∃ x < width, ∃ y < height, y * width + x < sizeLimit ∧
      (wrapped width height).bytes.size ≤ ((wrapped width height).locate x y).1 := by
  have hlast : sizeLimit - 1 < width * height := by
    unfold sizeLimit at harea ⊢
    omega
  obtain ⟨x, hx, y, hy, hplace⟩ := Frame.exists_place hlast
  have hbyte : ((wrapped width height).locate x y).1 = (sizeLimit - 1) / 8 := by
    show (y % height * width + x % width) / 8 = _
    rw [Nat.mod_eq_of_lt hx, Nat.mod_eq_of_lt hy, hplace]
  have hrest : width * height % sizeLimit < sizeLimit := Nat.mod_lt _ (by decide)
  refine ⟨x, hx, y, hy, ?_, ?_⟩
  · rw [hplace]
    decide
  · rw [size_wrapped, hbyte]
    exact Nat.div_le_div_right (by omega)

end Bitmap

/-! ### Machines -/

/-- A new machine traps exactly where a size does not count its pixels. -/
theorem Machine.new_eq_none_iff {c : Config} (hc : c.check = .ok c) :
    Machine.new? c = none ↔ sizeLimit ≤ c.area := by
  constructor
  · intro htrap
    by_contra hfits
    rw [Machine.new_eq hc (Nat.lt_of_not_le hfits)] at htrap
    cases htrap
  · intro harea
    have hproduct : Checked.within sizeLimit (c.screenWidth * c.screenHeight) = none :=
      if_neg (Nat.not_lt_of_le harea)
    rw [Machine.new?, hproduct]
    rfl

/-- **Area.** A text describes sides that a size can count. A machine can be made of them exactly if
a size counts their product too. Then every pixel has a byte of the buffer, whatever was done to the
machine, and nothing that is done to it traps. Else there is a pixel whose byte lies outside of what
the product leaves for the buffer. -/
theorem area_exact {text : String} {c : Config} (hparse : Config.parse text = .ok c) :
    (c.screenWidth < sizeLimit ∧ c.screenHeight < sizeLimit) ∧
      (Machine.new? c = none ↔ sizeLimit ≤ c.area) ∧
      (c.area < sizeLimit →
        Machine.new? c = some (Machine.new c) ∧
          Bitmap.wrapped c.screenWidth c.screenHeight =
            Bitmap.blank c.screenWidth c.screenHeight ∧
          (Bitmap.blank c.screenWidth c.screenHeight).Whole ∧
          (∀ b : Bitmap, b.Whole → b.width = c.screenWidth → b.height = c.screenHeight →
            ∀ x y, (b.locate x y).1 < c.area / 8) ∧
          (∀ m, Reachable c m → ∀ x y,
            m.screen.frame.locate? x y = some (m.screen.frame.index x y)) ∧
          ∀ ops : List Operation, (∀ op ∈ ops, op.InRange) →
            ops.foldlM Operation.run? (Machine.new c) =
              some (ops.foldl Operation.apply (Machine.new c))) ∧
      (sizeLimit ≤ c.area →
        ∃ x < c.screenWidth, ∃ y < c.screenHeight, y * c.screenWidth + x < sizeLimit ∧
          (Bitmap.wrapped c.screenWidth c.screenHeight).bytes.size ≤
            ((Bitmap.wrapped c.screenWidth c.screenHeight).locate x y).1) := by
  obtain ⟨hpossible, hwidth, hheight⟩ := Config.exists_text_iff.mp ⟨text, hparse⟩
  have hc : c.check = .ok c := Config.check_eq_ok_iff_possible.mpr ⟨rfl, hpossible⟩
  refine ⟨⟨Nat.lt_succ_of_le hwidth, Nat.lt_succ_of_le hheight⟩, Machine.new_eq_none_iff hc,
    fun harea => ⟨Machine.new_eq hc harea, Bitmap.wrapped_eq_blank harea,
      Bitmap.whole_blank hpossible, ?_, ?_, ?_⟩,
    Bitmap.exists_outside⟩
  · intro b hb hbw hbh x y
    have hsize : b.bytes.size = c.area / 8 := by rw [hb.bytes, hbw, hbh, Config.area]
    exact hsize ▸ hb.locate_lt x y
  · intro m hm x y
    exact ((sound_of_reachable hc hm).inBounds hc harea).screen.locate_eq x y
  · intro ops hops
    exact Machine.runs_eq hc harea hops (Sound.new hc)

/-- Sides of a few pixels. -/
def narrow : String := "width=72, height=3"

/-- Sides that a size can count, whose product is the first number that it cannot. -/
def wide : String := "width=4294967296, height=4294967296"

/-- A sprite over the last corner of a narrow picture, and the buffer of a wide one. -/
theorem area_exact_narrow :
    Config.parse narrow = .ok ⟨4096, 72, 3, 0x200⟩ ∧
      Machine.new? ⟨4096, 72, 3, 0x200⟩ = some (Machine.new ⟨4096, 72, 3, 0x200⟩) ∧
      ((Bitmap.blank 72 3).locate 71 5).1 < 27 ∧
      [Operation.draw 71 2 [0xC0, 0xFF], .tick].foldlM Operation.run?
          (Machine.new ⟨4096, 72, 3, 0x200⟩) =
        some ([Operation.draw 71 2 [0xC0, 0xFF], .tick].foldl Operation.apply
          (Machine.new ⟨4096, 72, 3, 0x200⟩)) ∧
      Config.parse wide = .ok ⟨4096, 4294967296, 4294967296, 0x200⟩ ∧
      ∃ x < 4294967296, ∃ y < 4294967296,
        (Bitmap.wrapped 4294967296 4294967296).bytes.size ≤
          ((Bitmap.wrapped 4294967296 4294967296).locate x y).1 := by
  have hnarrow : Config.parse narrow = .ok ⟨4096, 72, 3, 0x200⟩ := rfl
  have hwide : Config.parse wide = .ok ⟨4096, 4294967296, 4294967296, 0x200⟩ := rfl
  have hfew : (Config.mk 4096 72 3 0x200).area < sizeLimit := by decide
  have hmany : sizeLimit ≤ (Config.mk 4096 4294967296 4294967296 0x200).area := by decide
  have hrange : ∀ op ∈ [Operation.draw 71 2 [0xC0, 0xFF], .tick], op.InRange := by
    intro op hop
    rcases List.mem_pair.mp hop with rfl | rfl
    · show 71 + 8 ≤ sizeLimit ∧ 2 + 2 ≤ sizeLimit
      decide
    · trivial
  obtain ⟨_, _, hfits, _⟩ := area_exact hnarrow
  obtain ⟨hnew, _, hwhole, hbytes, _, hruns⟩ := hfits hfew
  obtain ⟨_, _, _, hexceeds⟩ := area_exact hwide
  obtain ⟨x, hx, y, hy, _, houtside⟩ := hexceeds hmany
  exact ⟨hnarrow, hnew, hbytes _ hwhole rfl rfl 71 5, hruns _ hrange, hwide, x, hx, y, hy, houtside⟩

/-- No machine can be made of the wide picture that a text describes: nothing is left of the product
of its sides, and so no byte for any of its pixels. -/
theorem area_beyond_sizes :
    Config.parse wide = .ok ⟨4096, 4294967296, 4294967296, 0x200⟩ ∧
      (Config.mk 4096 4294967296 4294967296 0x200).area = sizeLimit ∧
      Machine.new? ⟨4096, 4294967296, 4294967296, 0x200⟩ = none ∧
      (Bitmap.wrapped 4294967296 4294967296).bytes.size = 0 := by
  refine ⟨rfl, rfl, ?_, Bitmap.size_wrapped⟩
  exact (Machine.new_eq_none_iff rfl).mpr (Nat.le_refl sizeLimit)

end Chip8
