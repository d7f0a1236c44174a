import Mathlib.Data.Finset.Prod
import Mathlib.Data.Nat.Count
import Chip8.Proofs.Machine.Screen

/-! # Drawing

What drawing a sprite does to a picture, pixel by pixel.

* **Hits.** `setBits` lists the set bits of a sprite, and `hits` counts those that wrap to a pixel.
  A sprite that is taller than the picture hits pixels more than once. It `Fits` if none of its set
  bits gets beyond the last size.
* **Displays.** A `Display` is what can be seen of a screen, however it keeps its pixels.
  `Display.Exact` says that it draws by inverting each pixel as often as it is hit, and
  `Display.Faithful` is what of this does not depend on where the sprite is drawn.
* **Steps.** Drawing is a run of `flips`, each of which inverts one pixel. A run inverts a pixel as
  often as its index is listed (`getD_flips`), and it collides where it comes to a pixel that is set
  or comes back to a pixel (`collides_flips`).
* **Pictures.** Pixels have indices of their own (`index_eq_iff`), so a run counts the hits of a
  sprite that fits. This makes the screen of the machine an exact display
  (`Screen.exact_display`). -/

namespace Chip8

/-! ### Hits -/

/-- The set bits of a sprite, each with its column and its row. -/
def setBits (sprite : List UInt8) : List (Nat × Nat) :=
  sprite.zipIdx.flatMap fun (line, row) => (Frame.setColumns line).map fun column => (column, row)

/-- How many set bits of a sprite that is drawn at `(x, y)` wrap to a pixel. -/
def hits (width height x y : Nat) (sprite : List UInt8) (px py : Nat) : Nat :=
  (setBits sprite).countP fun b => (x + b.1) % width = px ∧ (y + b.2) % height = py

/-- The set bits of a sprite that is drawn at `(x, y)` have coordinates that are sizes. -/
def Fits (x y : Nat) (sprite : List UInt8) : Prop :=
  ∀ b ∈ setBits sprite, x + b.1 < sizeLimit ∧ y + b.2 < sizeLimit

instance (x y : Nat) (sprite : List UInt8) : Decidable (Fits x y sprite) :=
  inferInstanceAs (Decidable (∀ b ∈ setBits sprite, x + b.1 < sizeLimit ∧ y + b.2 < sizeLimit))

theorem lt_of_mem_setBits {sprite : List UInt8} {b : Nat × Nat} (h : b ∈ setBits sprite) :
    b.1 < 8 ∧ b.2 < sprite.length := by
  obtain ⟨⟨line, row⟩, hline, hb⟩ := List.mem_flatMap.mp h
  obtain ⟨column, hcolumn, rfl⟩ := List.mem_map.mp hb
  exact ⟨Frame.setColumns_lt hcolumn, List.snd_lt_of_mem_zipIdx hline⟩

/-- A sprite fits if its bytes and rows do, whatever bits are set in there. -/
theorem fits_of_le {x y : Nat} {sprite : List UInt8} (hx : x + 8 ≤ sizeLimit)
    (hy : y + sprite.length ≤ sizeLimit) : Fits x y sprite := by
  intro b hb
  obtain ⟨hcolumn, hrow⟩ := lt_of_mem_setBits hb
  omega

/-- The pixels that are set. -/
def setPixels (width height : Nat) (pixel : Nat → Nat → Bool) : Finset (Nat × Nat) :=
  (Finset.range width ×ˢ Finset.range height).filter fun p => pixel p.1 p.2

/-! ### Displays -/

/-- What can be seen of a screen. -/
structure Display (σ : Type) where
  width : σ → Nat
  height : σ → Nat
  pixel : σ → Nat → Nat → Bool
  draw : σ → Nat → Nat → List UInt8 → σ × Bool
  /-- A pixel of the frame that is taken, and how many of the pixels in there are set. -/
  framePixel : σ → Nat → Nat → Bool
  lit : σ → Nat

/-- The screen keeps its size when a sprite is drawn, and the frame shows the screen. -/
structure Display.Faithful {σ : Type} (d : Display σ) (s : σ) (x y : Nat) (sprite : List UInt8) :
    Prop where
  width : d.width (d.draw s x y sprite).1 = d.width s
  height : d.height (d.draw s x y sprite).1 = d.height s
  inside : ∀ px < d.width s, ∀ py < d.height s, d.framePixel s px py = d.pixel s px py
  outside : ∀ px py, d.width s ≤ px ∨ d.height s ≤ py → d.framePixel s px py = false
  lit : d.lit s = (setPixels (d.width s) (d.height s) (d.pixel s)).card

/-- A sprite is drawn as it has to be. -/
structure Display.Exact {σ : Type} (d : Display σ) (s : σ) (x y : Nat) (sprite : List UInt8) :
    Prop extends d.Faithful s x y sprite where
  /-- A pixel is inverted as often as it is hit. -/
  pixel : ∀ px < d.width s, ∀ py < d.height s, d.pixel (d.draw s x y sprite).1 px py =
    (d.pixel s px py ^^ decide (hits (d.width s) (d.height s) x y sprite px py % 2 = 1))
  /-- There is a collision where a pixel is hit that is set, be it before the drawing or since an
  earlier hit. -/
  collides : (d.draw s x y sprite).2 = true ↔ ∃ px < d.width s, ∃ py < d.height s,
    (d.pixel s px py = true ∧ 1 ≤ hits (d.width s) (d.height s) x y sprite px py) ∨
      2 ≤ hits (d.width s) (d.height s) x y sprite px py

/-- Two displays look the same. -/
structure Display.Agree {σ τ : Type} (d : Display σ) (e : Display τ) (s : σ) (t : τ) : Prop where
  width : d.width s = e.width t
  height : d.height s = e.height t
  pixel : d.pixel s = e.pixel t
  framePixel : d.framePixel s = e.framePixel t
  lit : d.lit s = e.lit t

section Agree

variable {σ τ : Type} {d : Display σ} {e : Display τ} {s : σ} {t : τ} {x y : Nat}
  {sprite : List UInt8}

/-- What looks the same before a drawing and behind it is drawn to alike. -/
theorem Display.Faithful.of_agree (hfaithful : e.Faithful t x y sprite) (h : d.Agree e s t)
    (hdraw : d.Agree e (d.draw s x y sprite).1 (e.draw t x y sprite).1) :
    d.Faithful s x y sprite := by
  constructor
  · rw [hdraw.width, hfaithful.width, h.width]
  · rw [hdraw.height, hfaithful.height, h.height]
  · rw [h.width, h.height, h.pixel, h.framePixel]
    exact hfaithful.inside
  · rw [h.width, h.height, h.framePixel]
    exact hfaithful.outside
  · rw [h.width, h.height, h.pixel, h.lit]
    exact hfaithful.lit

theorem Display.Exact.of_agree (hexact : e.Exact t x y sprite) (h : d.Agree e s t)
    (hdraw : d.Agree e (d.draw s x y sprite).1 (e.draw t x y sprite).1)
    (hcollides : (d.draw s x y sprite).2 = (e.draw t x y sprite).2) : d.Exact s x y sprite := by
  refine ⟨hexact.toFaithful.of_agree h hdraw, ?_, ?_⟩
  · rw [hdraw.pixel, h.width, h.height, h.pixel]
    exact hexact.pixel
  · rw [hcollides, h.width, h.height, h.pixel]
    exact hexact.collides

end Agree

namespace Frame

variable {f : Frame} {acc : Frame × Bool} {x y i j : Nat} {is : List Nat}

/-- Pictures of one shape are the same if their pixels are. -/
theorem eq_of_getD {g : Frame} (hshape : g.shape = f.shape)
    (hpixels : ∀ i, g.pixels.getD i false = f.pixels.getD i false) : g = f := by
  obtain ⟨hwidth, hheight, hsize⟩ := sides_of_shape hshape
  have hsame : g.pixels = f.pixels := by
    apply Array.ext hsize
    intro i hg hf
    have hi := hpixels i
    rwa [Array.getElem_eq_getD false, Array.getElem_eq_getD false]
  cases f
  cases g
  simp_all

/-! ### Steps -/

/-- Invert the pixel at an index. -/
def flip (f : Frame) (i : Nat) : Frame :=
  { f with pixels := f.pixels.setIfInBounds i (!f.pixels.getD i false) }

/-- Invert the pixels at all indices and tell whether one was set when its turn came. -/
def flips (acc : Frame × Bool) (is : List Nat) : Frame × Bool :=
  is.foldl (fun acc i => (acc.1.flip i, acc.2 || acc.1.pixels.getD i false)) acc

theorem flips_cons (acc : Frame × Bool) (i : Nat) (is : List Nat) :
    flips acc (i :: is) = flips (acc.1.flip i, acc.2 || acc.1.pixels.getD i false) is := rfl

theorem flips_append (acc : Frame × Bool) (is js : List Nat) :
    flips acc (is ++ js) = flips (flips acc is) js := List.foldl_append

theorem shape_flip (f : Frame) (i : Nat) : (f.flip i).shape = f.shape := by
  simp only [shape, flip, Array.size_setIfInBounds]

theorem shape_flips (acc : Frame × Bool) (is : List Nat) :
    (flips acc is).1.shape = acc.1.shape := by
  induction is generalizing acc with
  | nil => rfl
  | cons i is ih => rw [flips_cons, ih, shape_flip]

theorem getD_flip (hi : i < f.pixels.size) (j : Nat) :
    (f.flip i).pixels.getD j false = (f.pixels.getD j false ^^ decide (i = j)) := by
  by_cases h : i = j
  · subst h
    simp [flip, Array.getD, hi]
  · simp [flip, Array.getD_eq_getD_getElem?, h]

theorem odd_succ (k : Nat) : decide ((k + 1) % 2 = 1) = !decide (k % 2 = 1) := by
  rcases Nat.mod_two_eq_zero_or_one k with h | h
  · simp [Nat.add_mod, h]
  · simp [Nat.add_mod, h]

/-- The indices that are left stay in the picture. -/
theorem forall_lt_flip (his : ∀ k ∈ i :: is, k < f.pixels.size) :
    i < f.pixels.size ∧ ∀ k ∈ is, k < (f.flip i).pixels.size := by
  obtain ⟨_, _, hsize⟩ := sides_of_shape (shape_flip f i)
  obtain ⟨hi, his⟩ := List.forall_mem_cons.mp his
  exact ⟨hi, hsize ▸ his⟩

/-- A run inverts a pixel as often as its index is listed. -/
theorem getD_flips (his : ∀ i ∈ is, i < acc.1.pixels.size) (j : Nat) :
    (flips acc is).1.pixels.getD j false =
      (acc.1.pixels.getD j false ^^ decide (is.count j % 2 = 1)) := by
  induction is generalizing acc with
  | nil => simp [flips]
  | cons i is ih =>
      obtain ⟨hi, htail⟩ := forall_lt_flip his
      rw [flips_cons, ih htail, getD_flip hi]
      by_cases h : i = j
      · subst h
        rw [List.count_cons_self, odd_succ]
        simp
      · rw [List.count_cons_of_ne h]
        simp [h]

/-- A run collides where it comes to a pixel that is set or comes back to a pixel. -/
theorem collides_flips (his : ∀ i ∈ is, i < acc.1.pixels.size) :
    (flips acc is).2 = true ↔ acc.2 = true ∨
      ∃ j, (acc.1.pixels.getD j false = true ∧ 1 ≤ is.count j) ∨ 2 ≤ is.count j := by
  induction is generalizing acc with
  | nil => simp [flips]
  | cons i is ih =>
      obtain ⟨hi, htail⟩ := forall_lt_flip his
      have hcount : ∀ j, (i :: is).count j = is.count j + if i = j then 1 else 0 := by
        intro j
        simp [List.count_cons]
      rw [flips_cons, ih htail, Bool.or_eq_true, or_assoc]
      refine or_congr_right ?_
      simp only [getD_flip hi, hcount]
      constructor
      · rintro (hset | ⟨j, hj⟩)
        · exact ⟨i, .inl ⟨hset, by simp⟩⟩
        · refine ⟨j, ?_⟩
          by_cases h : i = j
          · -- The pixel was inverted, so that a later hit is a second one or comes to a set pixel.
            subst h
            generalize is.count i = times at hj ⊢
            simp at hj ⊢
            omega
          · simpa [h] using hj
      · rintro ⟨j, hj⟩
        by_cases h : i = j
        · subst h
          cases hold : acc.1.pixels.getD i false with
          | true => exact .inl rfl
          | false =>
              refine .inr ⟨i, ?_⟩
              generalize is.count i = times at hj ⊢
              simp [hold] at hj ⊢
              omega
        · refine .inr ⟨j, ?_⟩
          simpa [h] using hj

/-- A run that is made twice inverts nothing. -/
theorem flips_flips (acc : Frame × Bool) (his : ∀ i ∈ is, i < acc.1.pixels.size) (b : Bool) :
    (flips ((flips acc is).1, b) is).1 = acc.1 := by
  have hshape := shape_flips acc is
  obtain ⟨_, _, hsize⟩ := sides_of_shape hshape
  apply eq_of_getD ((shape_flips ((flips acc is).1, b) is).trans hshape)
  intro j
  rw [getD_flips (hsize ▸ his), getD_flips his, Bool.xor_assoc, Bool.xor_self, Bool.xor_false]

/-! ### Runs -/

/-- The indices of the pixels that a sprite is drawn to. -/
def indices (f : Frame) (x y : Nat) (sprite : List UInt8) : List Nat :=
  (setBits sprite).map fun b => f.index (coordinate (x + b.1)) (coordinate (y + b.2))

theorem index_of_shape {g : Frame} (hshape : g.shape = f.shape) (x y : Nat) :
    g.index x y = f.index x y := by
  obtain ⟨hwidth, hheight, _⟩ := sides_of_shape hshape
  rw [index, index, hwidth, hheight]

theorem drawRow_eq_flips (x y : Nat) (acc : Frame × Bool) (row : UInt8) :
    drawRow x y acc row =
      flips acc ((setColumns row).map fun c => acc.1.index (coordinate (x + c)) y) := by
  unfold drawRow
  induction setColumns row generalizing acc with
  | nil => rfl
  | cons c cs ih =>
      rw [List.foldl_cons, ih, List.map_cons, flips_cons]
      rfl

theorem drawRows_eq_flips (x y k : Nat) (acc : Frame × Bool) (rows : List UInt8) :
    drawRows x (y + k) acc rows = flips acc (((rows.zipIdx k).flatMap fun (line, row) =>
      (setColumns line).map fun column => (column, row)).map fun b =>
        acc.1.index (coordinate (x + b.1)) (coordinate (y + b.2))) := by
  induction rows generalizing k acc with
  | nil => rfl
  | cons row rows ih =>
      have hindex := index_of_shape (shape_drawRow x (coordinate (y + k)) acc row)
      rw [drawRows, Nat.add_assoc, ih, List.zipIdx_cons, List.flatMap_cons, List.map_append,
        flips_append, List.map_map]
      simp only [hindex]
      rw [drawRow_eq_flips]
      rfl

theorem draw_eq_flips (f : Frame) (x y : Nat) (sprite : List UInt8) :
    f.draw x y sprite = flips (f, false) (f.indices x y sprite) :=
  drawRows_eq_flips x y 0 (f, false) sprite

/-! ### Pictures -/

/-- The picture has sides, and a pixel for each place. -/
structure Whole (f : Frame) : Prop where
  width : 0 < f.width
  height : 0 < f.height
  pixels : f.pixels.size = f.width * f.height

/-- A place has a column and a row of its own. -/
theorem place_inj {width px py qx qy : Nat} (hp : px < width) (hq : qx < width)
    (h : py * width + px = qy * width + qx) : px = qx ∧ py = qy := by
  have hcolumn := congrArg (· % width) h
  simp only [Nat.mul_add_mod_self_right, Nat.mod_eq_of_lt hp, Nat.mod_eq_of_lt hq] at hcolumn
  subst hcolumn
  exact ⟨rfl, Nat.eq_of_mul_eq_mul_right (Nat.zero_lt_of_lt hp) (Nat.add_right_cancel h)⟩

theorem index_eq_iff (hpos : 0 < f.width) {px py : Nat} (hx : px < f.width) :
    f.index x y = py * f.width + px ↔ x % f.width = px ∧ y % f.height = py := by
  constructor
  · exact place_inj (Nat.mod_lt _ hpos) hx
  · rintro ⟨rfl, rfl⟩
    rfl

/-- The index of a pixel is listed for each of its hits. -/
theorem count_indices (hpos : 0 < f.width) {sprite : List UInt8} (hfits : Fits x y sprite)
    {px py : Nat} (hx : px < f.width) : (f.indices x y sprite).count (py * f.width + px) =
      hits f.width f.height x y sprite px py := by
  rw [indices, hits, List.count, List.countP_map]
  apply List.countP_congr
  intro b hb
  obtain ⟨hcolumn, hrow⟩ := hfits b hb
  simp [coordinate_of_lt hcolumn, coordinate_of_lt hrow, index_eq_iff hpos hx]

/-- Every number below the area is a place. -/
theorem exists_place {width height : Nat} (hj : j < width * height) :
    ∃ px < width, ∃ py < height, py * width + px = j := by
  have hpos : 0 < width := Nat.pos_of_mul_pos_right (Nat.zero_lt_of_lt hj)
  refine ⟨j % width, Nat.mod_lt _ hpos, j / width, ?_, Nat.div_add_mod' j width⟩
  rwa [Nat.div_lt_iff_lt_mul hpos, Nat.mul_comm]

/-- The set places are the set pixels. -/
theorem count_eq_card (width height : Nat) (p : Nat → Bool) :
    Nat.count (fun i => p i) (width * height) =
      (setPixels width height fun px py => p (py * width + px)).card := by
  have hmem : ∀ q, q ∈ (setPixels width height fun px py => p (py * width + px)) ↔
      (q.1 < width ∧ q.2 < height) ∧ p (q.2 * width + q.1) = true := by
    intro q
    simp [setPixels]
  rw [Nat.count_eq_card_filter_range]
  symm
  apply Finset.card_bij fun q _ => q.2 * width + q.1
  · intro q hq
    obtain ⟨⟨hx, hy⟩, hset⟩ := (hmem q).mp hq
    exact Finset.mem_filter.mpr ⟨Finset.mem_range.mpr (place_lt hx hy), hset⟩
  · intro q hq r hr heq
    obtain ⟨⟨hqx, _⟩, _⟩ := (hmem q).mp hq
    obtain ⟨⟨hrx, _⟩, _⟩ := (hmem r).mp hr
    obtain ⟨hcolumn, hrow⟩ := place_inj hqx hrx heq
    exact Prod.ext hcolumn hrow
  · intro j hj
    obtain ⟨hlt, hset⟩ := Finset.mem_filter.mp hj
    obtain ⟨px, hx, py, hy, rfl⟩ := exists_place (Finset.mem_range.mp hlt)
    exact ⟨(px, py), (hmem _).mpr ⟨⟨hx, hy⟩, hset⟩, rfl⟩

/-- The pixels that are set are those at the set places. -/
theorem lit_eq_count (f : Frame) :
    f.lit = Nat.count (fun i => f.pixels.getD i false) f.pixels.size := by
  have hlist : f.pixels.toList = (List.range f.pixels.size).map (f.pixels.getD · false) := by
    apply List.ext_getElem
    · simp
    · intro i hi _
      simp at hi
      simp [Array.getD, hi]
  rw [lit, ← Array.count_toList, hlist, List.count, List.countP_map, Nat.count]
  apply List.countP_congr
  simp

theorem setPixels_congr {width height : Nat} {p q : Nat → Nat → Bool}
    (h : ∀ px < width, ∀ py < height, p px py = q px py) :
    setPixels width height p = setPixels width height q := by
  apply Finset.filter_congr
  intro r hr
  obtain ⟨hx, hy⟩ := Finset.mem_product.mp hr
  rw [h r.1 (Finset.mem_range.mp hx) r.2 (Finset.mem_range.mp hy)]

theorem pixel_of_lt {px py : Nat} (hx : px < f.width) (hy : py < f.height) :
    f.pixel px py = f.pixels.getD (py * f.width + px) false := by
  simp [pixel, hx, hy]

theorem pixel_of_outside {px py : Nat} (h : f.width ≤ px ∨ f.height ≤ py) :
    f.pixel px py = false := by
  unfold pixel
  rcases h with h | h
  · simp [Nat.not_lt.mpr h]
  · simp [Nat.not_lt.mpr h]

namespace Whole

theorem indices_lt (h : f.Whole) (x y : Nat) (sprite : List UInt8) :
    ∀ i ∈ f.indices x y sprite, i < f.pixels.size := by
  intro i hi
  obtain ⟨b, _, rfl⟩ := List.mem_map.mp hi
  rw [h.pixels]
  exact index_lt h.width h.height _ _

/-- Drawing inverts a pixel as often as it is hit. -/
theorem getD_draw (h : f.Whole) {sprite : List UInt8} (hfits : Fits x y sprite) {px py : Nat}
    (hx : px < f.width) :
    (f.draw x y sprite).1.pixels.getD (py * f.width + px) false =
      (f.pixels.getD (py * f.width + px) false ^^
        decide (hits f.width f.height x y sprite px py % 2 = 1)) := by
  rw [draw_eq_flips, getD_flips (h.indices_lt x y sprite), count_indices h.width hfits hx]

/-- Drawing collides where it hits a set pixel or hits a pixel once more. -/
theorem collides_draw (h : f.Whole) {sprite : List UInt8} (hfits : Fits x y sprite) :
    (f.draw x y sprite).2 = true ↔ ∃ px < f.width, ∃ py < f.height,
      (f.pixels.getD (py * f.width + px) false = true ∧
          1 ≤ hits f.width f.height x y sprite px py) ∨
        2 ≤ hits f.width f.height x y sprite px py := by
  have hlt := h.indices_lt x y sprite
  rw [draw_eq_flips, collides_flips hlt]
  constructor
  · rintro (hfalse | ⟨j, hj⟩)
    · cases hfalse
    · have hmem : j ∈ f.indices x y sprite := by
        apply List.count_pos_iff.mp
        omega
      obtain ⟨px, hx, py, hy, rfl⟩ := exists_place (h.pixels ▸ hlt j hmem)
      rw [count_indices h.width hfits hx] at hj
      exact ⟨px, hx, py, hy, hj⟩
  · rintro ⟨px, hx, py, hy, hj⟩
    refine .inr ⟨py * f.width + px, ?_⟩
    rw [count_indices h.width hfits hx]
    exact hj

/-- What is drawn twice is gone. -/
theorem draw_draw (h : f.Whole) (x y : Nat) (sprite : List UInt8) :
    ((f.draw x y sprite).1.draw x y sprite).1 = f := by
  have hindices : (f.draw x y sprite).1.indices x y sprite = f.indices x y sprite := by
    simp only [indices, index_of_shape (shape_draw f x y sprite)]
  rw [draw_eq_flips (f.draw x y sprite).1, hindices, draw_eq_flips]
  exact flips_flips (f, false) (h.indices_lt x y sprite) false

end Whole

end Frame

/-! ### The screen -/

namespace Screen

variable {s : Screen}

/-- What can be seen of the screen of the machine. -/
def display : Display Screen where
  width s := s.frame.width
  height s := s.frame.height
  pixel s := s.pixel
  draw s := s.draw
  framePixel s := s.takeFrame.1.pixel
  lit s := s.takeFrame.1.lit

theorem pixel_of_lt {px py : Nat} (hx : px < s.frame.width) (hy : py < s.frame.height) :
    s.pixel px py = s.frame.pixels.getD (py * s.frame.width + px) false := by
  rw [pixel, Frame.index, Nat.mod_eq_of_lt hx, Nat.mod_eq_of_lt hy]

theorem faithful_display (h : s.frame.Whole) (x y : Nat) (sprite : List UInt8) :
    display.Faithful s x y sprite := by
  obtain ⟨hwidth, hheight, _⟩ := Frame.sides_of_shape (Frame.shape_draw s.frame x y sprite)
  refine ⟨hwidth, hheight, ?_, ?_, ?_⟩
  · intro px hx py hy
    exact (Frame.pixel_of_lt hx hy).trans (pixel_of_lt hx hy).symm
  · intro px py hout
    exact Frame.pixel_of_outside hout
  · have hpixels : setPixels s.frame.width s.frame.height s.pixel =
        setPixels s.frame.width s.frame.height
          fun px py => s.frame.pixels.getD (py * s.frame.width + px) false :=
      Frame.setPixels_congr fun px hx py hy => pixel_of_lt hx hy
    show s.frame.lit = (setPixels s.frame.width s.frame.height s.pixel).card
    rw [Frame.lit_eq_count, h.pixels, Frame.count_eq_card, hpixels]

/-- **The screen** is an exact display. -/
theorem exact_display (h : s.frame.Whole) {x y : Nat} {sprite : List UInt8}
    (hfits : Fits x y sprite) : display.Exact s x y sprite := by
  obtain ⟨hwidth, hheight, _⟩ := Frame.sides_of_shape (Frame.shape_draw s.frame x y sprite)
  refine ⟨faithful_display h x y sprite, ?_, ?_⟩
  · intro px hx py hy
    have hbehind : (s.draw x y sprite).1.pixel px py =
        (s.frame.draw x y sprite).1.pixels.getD (py * s.frame.width + px) false := by
      rw [pixel_of_lt (hwidth ▸ hx) (hheight ▸ hy)]
      exact congrArg (fun w => (s.frame.draw x y sprite).1.pixels.getD (py * w + px) false) hwidth
    show (s.draw x y sprite).1.pixel px py = (s.pixel px py ^^ _)
    rw [hbehind, h.getD_draw hfits hx, ← pixel_of_lt hx hy]
    rfl
  · refine (h.collides_draw hfits).trans ?_
    constructor
    · rintro ⟨px, hx, py, hy, hhit⟩
      rw [← pixel_of_lt hx hy] at hhit
      exact ⟨px, hx, py, hy, hhit⟩
    · rintro ⟨px, hx, py, hy, hhit⟩
      refine ⟨px, hx, py, hy, ?_⟩
      rw [← pixel_of_lt hx hy]
      exact hhit

theorem draw_draw (h : s.frame.Whole) (x y : Nat) (sprite : List UInt8) :
    ((s.draw x y sprite).1.draw x y sprite).1 = { s with dirty := true } :=
  congrArg (Screen.mk · true) (h.draw_draw x y sprite)

end Screen

end Chip8
