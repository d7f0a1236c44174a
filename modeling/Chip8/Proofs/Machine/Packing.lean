import Mathlib.Data.Nat.Bitwise
import Chip8.Machine.Bitmap
import Chip8.Proofs.Machine.Drawing
import Chip8.Proofs.Machine.Invariant

/-! # Packing

The picture as it lies in storage shows and draws the same as the picture of the machine.

* **Bits.** `bit` reads the bits of a bitmap one behind the other. Its masks select the bits of a
  byte from the left (`and_mask`), so inverting a place inverts one bit (`bit_invert`).
* **Steps.** What `drawColumn` does to the bytes, `toggle` does to the pixels (`picture_invert`),
  and a column with a bit that is not set is passed by (`picture_drawLine`).
* **Runs.** Therefore whole sprites are drawn alike (`shown_draw`), and the canvas is an exact
  display as the screen is (`drawing_exact`).
* **Sizes.** Beyond the last size a sprite goes on at the first column and row, wherever the picture
  goes on (`drawing_beyond_sizes`). A machine does not draw there (`Machine.fits_sprite`). -/

namespace Chip8

namespace Bitmap

variable {b : Bitmap} {i j x y : Nat}

/-- The bytes hold a bit for each pixel, and rows begin with a byte. -/
structure Whole (b : Bitmap) : Prop where
  width : 0 < b.width
  aligned : b.width % 8 = 0
  height : 0 < b.height
  bytes : b.bytes.size = b.width * b.height / 8

/-! ### Bits -/

/-- The bits of the bytes, one behind the other. -/
def bit (b : Bitmap) (i : Nat) : Bool := b.isSet (place i)

theorem toNat_mask {k : Nat} (hk : k < 8) : (mask k).toNat = 2 ^ (7 - k) := by
  revert k
  decide

/-- A mask selects one bit of a byte, counted from the left. -/
theorem and_mask (byte : UInt8) {k : Nat} (hk : k < 8) :
    (byte &&& mask k != 0) = byte.toNat.testBit (7 - k) := by
  have hnat : (byte &&& mask k).toNat = (byte.toNat.testBit (7 - k)).toNat * 2 ^ (7 - k) := by
    rw [UInt8.toNat_and, toNat_mask hk, Nat.and_two_pow]
  rw [Bool.eq_iff_iff, bne_iff_ne, ne_eq, ← UInt8.toNat_inj, hnat]
  cases byte.toNat.testBit (7 - k) with
  | false => simp
  | true => simp

theorem bit_eq (b : Bitmap) (i : Nat) :
    b.bit i = (b.bytes.getD (i / 8) 0).toNat.testBit (7 - i % 8) :=
  and_mask _ (Nat.mod_lt _ (by decide))

/-- Inverting a place inverts one bit. -/
theorem bit_invert (hi : i / 8 < b.bytes.size) (j : Nat) :
    (b.invert (place i)).bit j = (b.bit j ^^ decide (i = j)) := by
  have hcolumn : i % 8 < 8 := Nat.mod_lt _ (by decide)
  have hcolumn' : j % 8 < 8 := Nat.mod_lt _ (by decide)
  rw [bit_eq, bit_eq]
  by_cases hbyte : i / 8 = j / 8
  · have hread : (b.invert (place i)).bytes.getD (j / 8) 0 =
        b.bytes.getD (j / 8) 0 ^^^ mask (i % 8) := by
      rw [← hbyte]
      simp [invert, place, Array.getD, hi, Array.getElem_modify_self]
    have hsame : 7 - i % 8 = 7 - j % 8 ↔ i = j := by omega
    rw [hread, UInt8.toNat_xor, toNat_mask hcolumn, Nat.testBit_xor, Nat.testBit_two_pow]
    simp only [hsame]
  · have hread : (b.invert (place i)).bytes.getD (j / 8) 0 = b.bytes.getD (j / 8) 0 := by
      simp [invert, place, Array.getD_eq_getD_getElem?, Array.getElem?_modify, hbyte]
    have hother : i ≠ j := by
      rintro rfl
      exact hbyte rfl
    rw [hread]
    simp [hother]

/-! ### Steps -/

theorem getD_picture (b : Bitmap) (hi : i < b.width * b.height) :
    b.picture.pixels.getD i false = b.bit i := by
  simp [picture, Array.getD, hi, bit]

theorem whole_picture (h : b.Whole) : b.picture.Whole where
  width := h.width
  height := h.height
  pixels := Array.size_ofFn

/-- A byte for each pixel. -/
theorem Whole.byte_lt (h : b.Whole) (hi : i < b.width * b.height) : i / 8 < b.bytes.size := by
  have hwhole : b.width * b.height % 8 = 0 := by
    rw [Nat.mul_mod, h.aligned, Nat.zero_mul, Nat.zero_mod]
  rw [h.bytes]
  omega

theorem Whole.invert (h : b.Whole) (p : Nat × UInt8) : (b.invert p).Whole where
  width := h.width
  aligned := h.aligned
  height := h.height
  bytes := (Array.size_modify ..).trans h.bytes

/-- What inverting does to the bytes, it does to the pixels. -/
theorem picture_invert (h : b.Whole) (hi : i < b.width * b.height) :
    (b.invert (place i)).picture = b.picture.flip i := by
  have hsize : b.picture.pixels.size = b.width * b.height := Array.size_ofFn
  have hshape : (b.invert (place i)).picture.shape = (b.picture.flip i).shape := by
    rw [Frame.shape_flip]
    simp only [Frame.shape, picture, Array.size_ofFn]
    rfl
  apply Frame.eq_of_getD hshape
  intro j
  rw [Frame.getD_flip (hsize ▸ hi)]
  by_cases hj : j < b.width * b.height
  · have hj' : j < (b.invert (place i)).width * (b.invert (place i)).height := hj
    rw [getD_picture _ hj', getD_picture _ hj, bit_invert (h.byte_lt hi)]
  · have hother : i ≠ j := by
      rintro rfl
      exact hj hi
    have hj' : ¬j < (b.invert (place i)).width * (b.invert (place i)).height := hj
    simp [picture, Array.getD, hj, hj', hother]

/-- A drawing in progress, with the pixels out of their bytes. -/
def shown (acc : Bitmap × Bool) : Frame × Bool := (acc.1.picture, acc.2)

/-- A column is passed by, or its pixel is inverted. -/
theorem shown_drawColumn {acc : Bitmap × Bool} (h : acc.1.Whole) (x y : Nat) (line : UInt8)
    {c : Nat} (hc : c < 8) :
    (drawColumn x y line acc c).1.Whole ∧ shown (drawColumn x y line acc c) =
      if line.toNat.testBit (7 - c) then
        (((shown acc).1.toggle (coordinate (x + c)) y).1,
          (shown acc).2 || ((shown acc).1.toggle (coordinate (x + c)) y).2)
      else shown acc := by
  have hmask := and_mask line hc
  unfold drawColumn
  cases hbit : line.toNat.testBit (7 - c) with
  | false =>
      rw [hbit] at hmask
      rw [if_pos (by simpa using hmask)]
      exact ⟨h, rfl⟩
  | true =>
      rw [hbit] at hmask
      rw [if_neg (by simpa using hmask)]
      have hlt : acc.1.picture.index (coordinate (x + c)) y < acc.1.width * acc.1.height :=
        Frame.index_lt h.width h.height _ _
      refine ⟨h.invert _, ?_⟩
      have hpicture := picture_invert h hlt
      have hold : acc.1.isSet (acc.1.locate (coordinate (x + c)) y) =
          acc.1.picture.pixels.getD (acc.1.picture.index (coordinate (x + c)) y) false :=
        (getD_picture _ hlt).symm
      show ((acc.1.invert (place (acc.1.picture.index (coordinate (x + c)) y))).picture,
        acc.2 || _) = _
      rw [hpicture, hold]
      rfl

theorem shown_columns {acc : Bitmap × Bool} (h : acc.1.Whole) (x y : Nat) (line : UInt8)
    {cs : List Nat} (hcs : ∀ c ∈ cs, c < 8) :
    (cs.foldl (drawColumn x y line) acc).1.Whole ∧
      shown (cs.foldl (drawColumn x y line) acc) =
        (cs.filter fun c => line.toNat.testBit (7 - c)).foldl
          (fun acc c =>
            let (f, old) := acc.1.toggle (coordinate (x + c)) y
            (f, acc.2 || old)) (shown acc) := by
  induction cs generalizing acc with
  | nil => exact ⟨h, rfl⟩
  | cons c cs ih =>
      obtain ⟨hc, hcs⟩ := List.forall_mem_cons.mp hcs
      obtain ⟨hwhole, hshown⟩ := shown_drawColumn h x y line hc
      obtain ⟨hend, hrest⟩ := ih hwhole hcs
      refine ⟨hend, ?_⟩
      rw [List.foldl_cons, hrest, hshown, List.filter_cons]
      split
      · rfl
      · rfl

/-- A row of a sprite is drawn alike. -/
theorem shown_drawLine {acc : Bitmap × Bool} (h : acc.1.Whole) (x y : Nat) (line : UInt8) :
    (drawLine x y acc line).1.Whole ∧
      shown (drawLine x y acc line) = Frame.drawRow x y (shown acc) line :=
  shown_columns h x y line fun _ => List.mem_range.mp

/-- So are all of its rows. -/
theorem shown_drawLines {acc : Bitmap × Bool} (h : acc.1.Whole) (x y k : Nat) (rows : List UInt8) :
    ((rows.zipIdx k).foldl
        (fun acc (line, row) => drawLine x (coordinate (y + row)) acc line) acc).1.Whole ∧
      shown ((rows.zipIdx k).foldl
        (fun acc (line, row) => drawLine x (coordinate (y + row)) acc line) acc) =
        Frame.drawRows x (y + k) (shown acc) rows := by
  induction rows generalizing acc k with
  | nil => exact ⟨h, rfl⟩
  | cons row rows ih =>
      obtain ⟨hwhole, hshown⟩ := shown_drawLine h x (coordinate (y + k)) row
      obtain ⟨hend, hrest⟩ := ih hwhole (k + 1)
      rw [List.zipIdx_cons, List.foldl_cons]
      refine ⟨hend, ?_⟩
      rw [hrest, hshown]
      rfl

/-- **A sprite** is drawn to the bytes as it is drawn to the pixels. -/
theorem shown_draw (h : b.Whole) (x y : Nat) (sprite : List UInt8) :
    (b.draw x y sprite).1.Whole ∧ shown (b.draw x y sprite) = b.picture.draw x y sprite :=
  shown_drawLines (show (b, false).1.Whole from h) x y 0 sprite

/-! ### Bytes -/

theorem count_congr {p q : Nat → Bool} {n : Nat} (h : ∀ i < n, p i = q i) :
    Nat.count (fun i => p i) n = Nat.count (fun i => q i) n := by
  apply List.countP_congr
  intro i hi
  simp only [h i (List.mem_range.mp hi)]

/-- The ones of a byte may be counted from the left. -/
theorem ones_eq_count (byte : UInt8) :
    ones byte = Nat.count (fun c => byte.toNat.testBit (7 - c)) 8 := by
  have hperm : ((List.range 8).map (7 - ·)).Perm (List.range 8) := by decide
  rw [ones, ← hperm.countP_eq, List.countP_map, Nat.count]
  apply List.countP_congr
  simp

theorem sum_ones {p : Nat → Bool} {bytes : List UInt8}
    (hp : ∀ k (hk : k < bytes.length), ∀ c < 8, p (8 * k + c) = bytes[k].toNat.testBit (7 - c)) :
    (bytes.map ones).sum = Nat.count (fun i => p i) (8 * bytes.length) := by
  -- Byte by byte, each of which moves the rest of the bits eight places on.
  induction bytes generalizing p with
  | nil => rfl
  | cons byte bytes ih =>
      have hhead : Nat.count (fun i => p i) 8 = ones byte := by
        rw [ones_eq_count]
        apply count_congr
        intro c hc
        have hbit := hp 0 (by simp) c hc
        simpa using hbit
      have htail : ∀ k (hk : k < bytes.length), ∀ c < 8,
          p (8 + (8 * k + c)) = bytes[k].toNat.testBit (7 - c) := by
        intro k hk c hc
        have hbit := hp (k + 1) (by simpa using hk) c hc
        rw [show 8 * (k + 1) + c = 8 + (8 * k + c) by omega] at hbit
        simpa using hbit
      rw [List.map_cons, List.sum_cons, ih (p := fun i => p (8 + i)) htail, List.length_cons,
        Nat.mul_succ, Nat.add_comm _ 8, Nat.count_add, hhead]

theorem Whole.area (h : b.Whole) : b.width * b.height = 8 * b.bytes.size := by
  have hwhole : b.width * b.height % 8 = 0 := by
    rw [Nat.mul_mod, h.aligned, Nat.zero_mul, Nat.zero_mod]
  have hbytes := h.bytes
  omega

/-- A bit of a byte is a bit of the bitmap. -/
theorem bit_of_byte (b : Bitmap) {k : Nat} (hk : k < b.bytes.size) {c : Nat} (hc : c < 8) :
    b.bit (8 * k + c) = b.bytes[k].toNat.testBit (7 - c) := by
  have hbyte : (8 * k + c) / 8 = k := by omega
  have hcolumn : (8 * k + c) % 8 = c := by omega
  rw [bit_eq, hbyte, hcolumn, Array.getElem_eq_getD 0]

theorem lit_picture (h : b.Whole) : b.lit = b.picture.lit := by
  have hsize : b.picture.pixels.size = 8 * b.bytes.size := Array.size_ofFn.trans h.area
  have hsum : (b.bytes.toList.map ones).sum = Nat.count (fun i => b.bit i) (8 * b.bytes.size) :=
    sum_ones fun k hk c hc => bit_of_byte b hk hc
  rw [lit, hsum, Frame.lit_eq_count, hsize]
  apply count_congr
  intro i hi
  rw [getD_picture b (h.area ▸ hi)]

/-- The picture tells what the bytes are. -/
theorem eq_of_picture {a : Bitmap} (ha : a.Whole) (hb : b.Whole) (h : a.picture = b.picture) :
    a = b := by
  have hwidth : a.width = b.width := congrArg Frame.width h
  have hheight : a.height = b.height := congrArg Frame.height h
  have hsize : a.bytes.size = b.bytes.size := by rw [ha.bytes, hb.bytes, hwidth, hheight]
  have hbytes : a.bytes = b.bytes := by
    apply Array.ext hsize
    intro k hka hkb
    apply UInt8.toNat_inj.mp
    apply Nat.eq_of_testBit_eq
    intro i
    by_cases hi : i < 8
    · have hlt : 8 * k + (7 - i) < a.width * a.height := by
        rw [ha.area]
        omega
      have hbit : a.bit (8 * k + (7 - i)) = b.bit (8 * k + (7 - i)) := by
        rw [← getD_picture a hlt, h, getD_picture b (hwidth ▸ hheight ▸ hlt)]
      rw [bit_of_byte a hka (by omega), bit_of_byte b hkb (by omega)] at hbit
      rwa [show 7 - (7 - i) = i by omega] at hbit
    · have hlarge : ∀ byte : UInt8, byte.toNat.testBit i = false := by
        intro byte
        apply Nat.testBit_lt_two_pow
        calc byte.toNat < 2 ^ 8 := byte.toNat_lt
          _ ≤ 2 ^ i := Nat.pow_le_pow_right (by decide) (by omega)
      rw [hlarge, hlarge]
  cases a
  cases b
  simp_all

/-- What is drawn twice is gone. -/
theorem draw_draw (h : b.Whole) (x y : Nat) (sprite : List UInt8) :
    ((b.draw x y sprite).1.draw x y sprite).1 = b := by
  obtain ⟨honce, hshown⟩ := shown_draw h x y sprite
  obtain ⟨htwice, hagain⟩ := shown_draw honce x y sprite
  apply eq_of_picture htwice h
  have hpicture : (b.draw x y sprite).1.picture = (b.picture.draw x y sprite).1 :=
    congrArg Prod.fst hshown
  calc ((b.draw x y sprite).1.draw x y sprite).1.picture
    _ = ((b.draw x y sprite).1.picture.draw x y sprite).1 := congrArg Prod.fst hagain
    _ = b.picture := by rw [hpicture, (whole_picture h).draw_draw]

end Bitmap

/-! ### The canvas -/

namespace Canvas

variable {s : Canvas}

/-- What can be seen of the canvas. -/
def display : Display Canvas where
  width s := s.bitmap.width
  height s := s.bitmap.height
  pixel s := s.pixel
  draw s := s.draw
  framePixel s := s.takeFrame.1.pixel
  lit s := s.takeFrame.1.lit

theorem pixel_screen (h : s.bitmap.Whole) (x y : Nat) : s.pixel x y = s.screen.pixel x y :=
  (Bitmap.getD_picture s.bitmap
    (Frame.place_lt (Nat.mod_lt _ h.width) (Nat.mod_lt _ h.height))).symm

theorem pixel_picture (b : Bitmap) (x y : Nat) : b.pixel x y = b.picture.pixel x y := by
  unfold Bitmap.pixel
  split
  · next hout => rw [Frame.pixel_of_outside hout]
  · next hin =>
      have hx : x < b.width := by omega
      have hy : y < b.height := by omega
      rw [Frame.pixel_of_lt hx hy]
      exact (Bitmap.getD_picture b (Frame.place_lt hx hy)).symm

/-- A canvas looks like the screen with its pixels. -/
theorem agree_screen (h : s.bitmap.Whole) : display.Agree Screen.display s s.screen where
  width := rfl
  height := rfl
  pixel := by
    funext x y
    exact pixel_screen h x y
  framePixel := by
    funext x y
    exact pixel_picture s.bitmap x y
  lit := Bitmap.lit_picture h

/-- A canvas is drawn to as the screen with its pixels is. -/
theorem screen_draw (h : s.bitmap.Whole) (x y : Nat) (sprite : List UInt8) :
    ((s.draw x y sprite).1.screen, (s.draw x y sprite).2) = s.screen.draw x y sprite := by
  obtain ⟨_, hshown⟩ := Bitmap.shown_draw h x y sprite
  show ((⟨(Bitmap.shown (s.bitmap.draw x y sprite)).1, true⟩ : Screen),
    (Bitmap.shown (s.bitmap.draw x y sprite)).2) = _
  rw [hshown]
  rfl

/-- What is drawn to both looks the same. -/
theorem agree_draw (h : s.bitmap.Whole) (x y : Nat) (sprite : List UInt8) :
    display.Agree Screen.display (s.draw x y sprite).1 (s.screen.draw x y sprite).1 := by
  have hscreen : (s.draw x y sprite).1.screen = (s.screen.draw x y sprite).1 :=
    congrArg Prod.fst (screen_draw h x y sprite)
  rw [← hscreen]
  exact agree_screen (Bitmap.shown_draw h x y sprite).1

theorem faithful_display (h : s.bitmap.Whole) (x y : Nat) (sprite : List UInt8) :
    display.Faithful s x y sprite := by
  have hfaithful : Screen.display.Faithful s.screen x y sprite :=
    Screen.faithful_display (Bitmap.whole_picture h) x y sprite
  exact hfaithful.of_agree (agree_screen h) (agree_draw h x y sprite)

/-- **The canvas** is an exact display. -/
theorem exact_display (h : s.bitmap.Whole) {x y : Nat} {sprite : List UInt8}
    (hfits : Fits x y sprite) : display.Exact s x y sprite := by
  have hwhole : s.screen.frame.Whole := Bitmap.whole_picture h
  exact (Screen.exact_display hwhole hfits).of_agree (agree_screen h) (agree_draw h x y sprite)
    (congrArg Prod.snd (screen_draw h x y sprite))

end Canvas

/-- Every sprite that a machine draws fits. -/
theorem Machine.fits_sprite (m : Machine) (w : UInt16) :
    Fits (m.reg (Word.x w)).toNat (m.reg (Word.y w)).toNat (m.sprite (Word.n w)) :=
  fits_of_le (m.sprite_le_sizes w).1 (m.sprite_le_sizes w).2

/-- **Drawing.** A sprite that fits inverts each pixel as often as its set bits wrap to it, and
collides exactly where it hits a set pixel or hits a pixel once more. Whatever is drawn, the size of
the picture does not change, what is drawn twice is gone, the frame that is taken shows the pixels
and none around them, and its lit pixels are counted. All of this holds of the picture of the
machine and of the picture as it lies in storage, and what is drawn to both stays the same. All
sprites that a machine draws fit. -/
theorem drawing_exact :
    (∀ (x y : Nat) (sprite : List UInt8) (s : Screen), s.frame.Whole →
      (Fits x y sprite → Screen.display.Exact s x y sprite) ∧
      Screen.display.Faithful s x y sprite ∧
      ((s.draw x y sprite).1.draw x y sprite).1 = { s with dirty := true }) ∧
    (∀ (x y : Nat) (sprite : List UInt8) (s : Canvas), s.bitmap.Whole →
      (Fits x y sprite → Canvas.display.Exact s x y sprite) ∧
      Canvas.display.Faithful s x y sprite ∧
      ((s.draw x y sprite).1.draw x y sprite).1 = { s with dirty := true } ∧
      (s.draw x y sprite).1.bitmap.Whole ∧ Canvas.display.Agree Screen.display s s.screen ∧
      ((s.draw x y sprite).1.screen, (s.draw x y sprite).2) = s.screen.draw x y sprite) ∧
    ∀ (m : Machine) (w : UInt16),
      Fits (m.reg (Word.x w)).toNat (m.reg (Word.y w)).toNat (m.sprite (Word.n w)) := by
  refine ⟨fun x y sprite s h => ?_, fun x y sprite s h => ?_, Machine.fits_sprite⟩
  · exact ⟨Screen.exact_display h, Screen.faithful_display h x y sprite,
      Screen.draw_draw h x y sprite⟩
  · refine ⟨Canvas.exact_display h, Canvas.faithful_display h x y sprite, ?_, ?_,
      Canvas.agree_screen h, Canvas.screen_draw h x y sprite⟩
    · exact congrArg (Canvas.mk · true) (Bitmap.draw_draw h x y sprite)
    · exact (Bitmap.shown_draw h x y sprite).1

/-- A canvas of two rows with a set pixel. -/
def dotted : Canvas := ⟨⟨16, 2, #[0, 0, 0x80, 0]⟩, false⟩

theorem drawing_exact_dotted :
    dotted.bitmap.Whole ∧ Fits 15 1 [0xC0, 0x00, 0x40] ∧
      hits 16 2 15 1 [0xC0, 0x00, 0x40] 0 1 = 2 ∧
      (dotted.draw 15 1 [0xC0, 0x00, 0x40]).2 = true ∧
      (dotted.draw 15 1 [0xC0, 0x00, 0x40]).1.pixel 0 1 = true ∧
      ((dotted.draw 15 1 [0xC0, 0x00, 0x40]).1.draw 15 1 [0xC0, 0x00, 0x40]).1 =
        { dotted with dirty := true } ∧
      dotted.screen.frame.Whole ∧ (dotted.screen.draw 15 1 [0xC0, 0x00, 0x40]).2 = true := by
  have hwhole : dotted.bitmap.Whole := ⟨by decide, by decide, by decide, by decide⟩
  have hscreen : dotted.screen.frame.Whole := Bitmap.whole_picture hwhole
  have hfits : Fits 15 1 [0xC0, 0x00, 0x40] := by decide
  have hhits : hits 16 2 15 1 [0xC0, 0x00, 0x40] 0 1 = 2 := by decide
  obtain ⟨hscreens, hcanvases, _⟩ := drawing_exact
  obtain ⟨hexact, _, hagain, _⟩ := hcanvases 15 1 [0xC0, 0x00, 0x40] dotted hwhole
  have hset : dotted.pixel 0 1 = true := by decide
  have hpixel : (dotted.draw 15 1 [0xC0, 0x00, 0x40]).1.pixel 0 1 = (dotted.pixel 0 1 ^^ false) :=
    (hexact hfits).pixel 0 (by decide) 1 (by decide)
  have hcollides : ∃ px < 16, ∃ py < 2, (dotted.pixel px py = true ∧
      1 ≤ hits 16 2 15 1 [0xC0, 0x00, 0x40] px py) ∨ 2 ≤ hits 16 2 15 1 [0xC0, 0x00, 0x40] px py :=
    ⟨0, by decide, 1, by decide, .inr hhits.ge⟩
  refine ⟨hwhole, hfits, hhits, (hexact hfits).collides.mpr hcollides,
    hpixel.trans (by rw [hset]; rfl), hagain, hscreen, ?_⟩
  exact ((hscreens 15 1 [0xC0, 0x00, 0x40] dotted.screen hscreen).1 hfits).collides.mpr
    ⟨0, by decide, 1, by decide, .inr hhits.ge⟩

/-- A bit behind the last size in a picture of 24 columns, and one in a picture of three rows.
Neither of these divides the number of sizes, so the picture goes on elsewhere. -/
theorem drawing_beyond_sizes :
    ((Canvas.blank 24 1).bitmap.Whole ∧ hits 24 1 0xFFFFFFFFFFFFFFFF 0 [0x40] 16 0 = 1 ∧
      ((Canvas.blank 24 1).draw 0xFFFFFFFFFFFFFFFF 0 [0x40]).1.pixel 16 0 = false ∧
      ((Canvas.blank 24 1).draw 0xFFFFFFFFFFFFFFFF 0 [0x40]).1.pixel 0 0 = true ∧
      ¬ Canvas.display.Exact (Canvas.blank 24 1) 0xFFFFFFFFFFFFFFFF 0 [0x40]) ∧
    (Canvas.blank 8 3).bitmap.Whole ∧ hits 8 3 0 0xFFFFFFFFFFFFFFFD [0, 0, 0, 0x80] 0 1 = 1 ∧
      ((Canvas.blank 8 3).draw 0 0xFFFFFFFFFFFFFFFD [0, 0, 0, 0x80]).1.pixel 0 1 = false ∧
      ((Canvas.blank 8 3).draw 0 0xFFFFFFFFFFFFFFFD [0, 0, 0, 0x80]).1.pixel 0 0 = true ∧
      ¬ Canvas.display.Exact (Canvas.blank 8 3) 0 0xFFFFFFFFFFFFFFFD [0, 0, 0, 0x80] := by
  constructor
  · refine ⟨⟨by decide, by decide, by decide, by decide⟩, by decide, by decide, by decide, ?_⟩
    intro hexact
    exact absurd (hexact.pixel 16 (by decide) 0 (by decide)) (by decide)
  · refine ⟨⟨by decide, by decide, by decide, by decide⟩, by decide, by decide, by decide, ?_⟩
    intro hexact
    exact absurd (hexact.pixel 0 (by decide) 1 (by decide)) (by decide)

end Chip8
