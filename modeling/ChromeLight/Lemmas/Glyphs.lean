import ChromeLight.Glyphs
import ChromeLight.Lib.Updates
import ChromeLight.Lemmas.Raster

/-!
# Blending and blitting

The 8-bit product is the nearest one (`mul255_near`), it is monotone, and its channels stay below alpha, so that compositing
never meets a color that is not premultiplied (`sourceOver_eq`). Blitting composites every pixel that a cell of the mask is
visible at once, and no other pixel (`pixel_blit`).
-/

namespace ChromeLight

namespace Gfx

/-! ## Blending -/

/-- The product as a number, rounded by shifts. -/
theorem toNat_mul255 (a b : UInt8) :
    (mul255 a b).toNat = (a.toNat * b.toNat + 128 + (a.toNat * b.toNat + 128) / 256) / 256 := by
  have ha := a.toNat_lt
  have hb := b.toNat_lt
  have hprod : a.toNat * b.toNat ≤ 255 * 255 := Nat.mul_le_mul (by omega) (by omega)
  unfold mul255
  simp only [UInt32.toNat_toUInt8, UInt32.toNat_shiftRight, UInt32.toNat_add, UInt32.toNat_mul, UInt8.toNat_toUInt32,
    UInt32.reduceToNat, Nat.reduceMod, Nat.shiftRight_eq_div_pow, Nat.reducePow]
  omega

/-- The product is the nearest one: 255 is odd, so that there is no tie. -/
theorem mul255_near (a b : UInt8) : 255 * (mul255 a b).toNat ≤ a.toNat * b.toNat + 127 ∧
    a.toNat * b.toNat ≤ 255 * (mul255 a b).toNat + 127 := by
  have ha := a.toNat_lt
  have hb := b.toNat_lt
  have hprod : a.toNat * b.toNat ≤ 255 * 255 := Nat.mul_le_mul (by omega) (by omega)
  rw [toNat_mul255]
  omega

/-- The product grows with its first factor. -/
theorem mul255_mono {a a' : UInt8} (b : UInt8) (h : a.toNat ≤ a'.toNat) : (mul255 a b).toNat ≤ (mul255 a' b).toNat := by
  have hprod : a.toNat * b.toNat ≤ a'.toNat * b.toNat := Nat.mul_le_mul_right _ h
  have h1 := (mul255_near a b).1
  have h2 := (mul255_near a' b).2
  omega

/-- Full coverage changes nothing. -/
theorem mul255_full (b : UInt8) : (mul255 255 b).toNat = b.toNat := by
  have hb := b.toNat_lt
  have hnear := mul255_near 255 b
  simp only [UInt8.reduceToNat] at hnear
  omega

/-- Coverage makes nothing larger. -/
theorem mul255_le (a b : UInt8) : (mul255 a b).toNat ≤ b.toNat := by
  have ha := a.toNat_lt
  have hmono := mul255_mono (a := a) b (show a.toNat ≤ (255 : UInt8).toNat by simp only [UInt8.reduceToNat]; omega)
  rwa [mul255_full] at hmono

/-- The rest of an alpha, as a number. -/
theorem toNat_inv (alpha : UInt8) : (255 - alpha).toNat = 255 - alpha.toNat := by
  have ha := alpha.toNat_lt
  rw [UInt8.toNat_sub_of_le _ _ (UInt8.le_iff_toNat_le.2 (by simp only [UInt8.reduceToNat]; omega))]
  rfl

/-- A sum of bytes that fits is exact. -/
theorem toNat_saturatingAddU8 {a b : UInt8} (h : a.toNat + b.toNat ≤ 255) :
    (saturatingAddU8 a b).toNat = a.toNat + b.toNat := by
  rw [saturatingAddU8, if_neg (by omega), UInt8.toNat_add]
  omega

/-- A channel of the blend is no larger than its alpha, and its alpha no larger than 255. -/
theorem blend_le (alpha src : UInt8) {dst dstAlpha : UInt8} (h : dst.toNat ≤ dstAlpha.toNat) :
    (mul255 src alpha).toNat + (mul255 dst (255 - alpha)).toNat ≤
        alpha.toNat + (mul255 dstAlpha (255 - alpha)).toNat ∧
      alpha.toNat + (mul255 dstAlpha (255 - alpha)).toNat ≤ 255 := by
  have ha := alpha.toNat_lt
  have hsrc := mul255_le src alpha
  have hdst := mul255_mono (255 - alpha) h
  have hfull := mul255_le dstAlpha (255 - alpha)
  rw [toNat_inv] at hfull
  omega

/-- What a valid pixel is composited to, channel by channel. -/
structure Composited (dst : PremultipliedColorU8) (color : Rgba8) (alpha : UInt8) (out : PremultipliedColorU8) : Prop where
  red : out.red.toNat = (mul255 color.r alpha).toNat + (mul255 dst.red (255 - alpha)).toNat
  green : out.green.toNat = (mul255 color.g alpha).toNat + (mul255 dst.green (255 - alpha)).toNat
  blue : out.blue.toNat = (mul255 color.b alpha).toNat + (mul255 dst.blue (255 - alpha)).toNat
  alpha : out.alpha.toNat = alpha.toNat + (mul255 dst.alpha (255 - alpha)).toNat
  valid : out.Valid

/-- On a valid pixel, compositing is refused only if there is nothing to composite. -/
theorem sourceOver_eq {Γ : Backend} (law : Γ.Premultiplies) {dst : PremultipliedColorU8} (h : dst.Valid) (color : Rgba8) (mask : UInt8)
    (ha : mul255 mask color.a ≠ 0) :
    ∃ out, sourceOver Γ dst color mask = some out ∧ Composited dst color (mul255 mask color.a) out := by
  obtain ⟨hr, hg, hb⟩ := h
  have hred := blend_le (mul255 mask color.a) color.r (UInt8.le_iff_toNat_le.1 hr)
  have hgreen := blend_le (mul255 mask color.a) color.g (UInt8.le_iff_toNat_le.1 hg)
  have hblue := blend_le (mul255 mask color.a) color.b (UInt8.le_iff_toNat_le.1 hb)
  have er := toNat_saturatingAddU8 (hred.1.trans hred.2)
  have eg := toNat_saturatingAddU8 (hgreen.1.trans hgreen.2)
  have eb := toNat_saturatingAddU8 (hblue.1.trans hblue.2)
  have ea := toNat_saturatingAddU8 hred.2
  have hvalid : saturatingAddU8 (mul255 color.r (mul255 mask color.a)) (mul255 dst.red (255 - mul255 mask color.a)) ≤
        saturatingAddU8 (mul255 mask color.a) (mul255 dst.alpha (255 - mul255 mask color.a)) ∧
      saturatingAddU8 (mul255 color.g (mul255 mask color.a)) (mul255 dst.green (255 - mul255 mask color.a)) ≤
        saturatingAddU8 (mul255 mask color.a) (mul255 dst.alpha (255 - mul255 mask color.a)) ∧
      saturatingAddU8 (mul255 color.b (mul255 mask color.a)) (mul255 dst.blue (255 - mul255 mask color.a)) ≤
        saturatingAddU8 (mul255 mask color.a) (mul255 dst.alpha (255 - mul255 mask color.a)) := by
    simp only [UInt8.le_iff_toNat_le, er, eg, eb, ea]
    exact ⟨hred.1, hgreen.1, hblue.1⟩
  refine ⟨⟨_, _, _, _⟩, ?_, er, eg, eb, ea, hvalid⟩
  unfold sourceOver
  simp only [if_neg ha]
  exact (law _ _ _ _).trans (if_pos hvalid)

/-- Over a valid pixel nothing is drawn exactly if the coverage comes to nothing. -/
theorem sourceOver_eq_none {Γ : Backend} (law : Γ.Premultiplies) {dst : PremultipliedColorU8} (h : dst.Valid) (color : Rgba8) (mask : UInt8) :
    sourceOver Γ dst color mask = none ↔ mul255 mask color.a = 0 := by
  constructor
  · intro hnone
    by_contra ha
    obtain ⟨out, hout, -⟩ := sourceOver_eq law h color mask ha
    rw [hnone] at hout
    cases hout
  · intro ha
    simp [sourceOver, ha]

/-- A face whose glyphs are single opaque pixels. -/
def Backend.sample : Backend where
  toPx au := ⟨.ofNat au.units.toNat⟩
  render _ _ _ := some ⟨0, 1, 1, 1, [255]⟩
  fromRgba red green blue alpha := if red ≤ alpha ∧ green ≤ alpha ∧ blue ≤ alpha then some ⟨red, green, blue, alpha⟩ else none
  fillRect p _ _ _ _ _ := p

/-- The sample keeps the law of `from_rgba`. -/
theorem premultiplies_sample : Backend.sample.Premultiplies := fun _ _ _ _ => rfl

/-! ## Numbers -/

/-- A number in range is a `u32`. -/
theorem tryU32_eq {i : Int} (h0 : 0 ≤ i) (h1 : i < 4294967296) :
    ∃ n, tryU32 i = some n ∧ n.toNat = i.toNat := by
  refine ⟨UInt32.ofNat i.toNat, if_pos ⟨h0, h1⟩, UInt32.toNat_ofNat_of_lt' ?_⟩
  show i.toNat < 4294967296
  omega

/-- A number is a `usize` exactly if it is in range. -/
theorem tryUsize_eq_some {i : Int} {n : Nat} : tryUsize i = some n ↔ (0 ≤ i ∧ i ≤ usizeMax) ∧ n = i.toNat := by
  rw [tryUsize, Option.ite_none_right_eq_some, Option.some.injEq, eq_comm (b := n)]

/-- A product that fits is exact. -/
theorem checkedMul_eq_some {a b n : Nat} : checkedMul a b = some n ↔ a * b ≤ usizeMax ∧ n = a * b := by
  rw [checkedMul, Option.ite_none_right_eq_some, Option.some.injEq, eq_comm (b := n)]

/-- A sum that fits is exact. -/
theorem checkedAdd_eq_some {a b n : Nat} : checkedAdd a b = some n ↔ a + b ≤ usizeMax ∧ n = a + b := by
  rw [checkedAdd, Option.ite_none_right_eq_some, Option.some.injEq, eq_comm (b := n)]

/-- A row and a column below 2³² make an index that is a `usize`. -/
theorem index_le_usizeMax (row col width : Nat) (hr : row < 4294967296) (hw : width < 4294967296) (hc : col < width) :
    row * width + col ≤ usizeMax := by
  have hprod : row * width ≤ 4294967295 * 4294967295 := Nat.mul_le_mul (by omega) (by omega)
  unfold usizeMax
  omega

/-- Cells of a grid are told apart by their index. -/
theorem index_inj {x y x' y' width : Nat} (hx : x < width) (hx' : x' < width) (h : y * width + x = y' * width + x') :
    x = x' ∧ y = y' := by
  have hdiv := congrArg (· / width) h
  have hmod := congrArg (· % width) h
  have hpos : 0 < width := by omega
  simp only [Nat.mul_add_mod_self_right, Nat.mod_eq_of_lt hx, Nat.mod_eq_of_lt hx'] at hmod
  simp only [Nat.mul_comm _ width, Nat.mul_add_div hpos, Nat.div_eq_of_lt hx, Nat.div_eq_of_lt hx', Nat.add_zero] at hdiv
  exact ⟨hmod, hdiv⟩

/-! ## Cells -/

/-- The coverage of a cell in range, as far as the data reach. -/
theorem coverage_eq (bitmap : GlyphBitmap) (col row : UInt32) : bitmap.coverage col row =
    if col < bitmap.width ∧ row < bitmap.height then bitmap.alpha[row.toNat * bitmap.width.toNat + col.toNat]? else none := by
  have hrow := row.toNat_lt
  have hwidth := bitmap.width.toNat_lt
  unfold GlyphBitmap.coverage
  by_cases hin : col < bitmap.width ∧ row < bitmap.height
  · have hcol := UInt32.lt_iff_toNat_lt.1 hin.1
    have hout : ¬(bitmap.width ≤ col ∨ bitmap.height ≤ row) := by
      simp only [UInt32.le_iff_toNat_le, UInt32.lt_iff_toNat_lt] at hin ⊢
      omega
    have hindex := index_le_usizeMax row.toNat col.toNat bitmap.width.toNat (by omega) (by omega) hcol
    have hmul := checkedMul_eq_some.2 ⟨(Nat.le_add_right _ _).trans hindex, rfl⟩
    have hadd := checkedAdd_eq_some.2 ⟨hindex, rfl⟩
    rw [if_neg hout, if_pos hin]
    simp only [hmul, hadd, Option.bind_eq_bind, Option.bind_some]
  · have hout : bitmap.width ≤ col ∨ bitmap.height ≤ row := by
      simp only [UInt32.le_iff_toNat_le, UInt32.lt_iff_toNat_lt] at hin ⊢
      omega
    rw [if_pos hout, if_neg hin]

instance (clip : PixelClip) (x y : Int) : Decidable (clip.Contains x y) := inferInstanceAs (Decidable (_ ∧ _))

/-- The coverage that a mask has at a device pixel inside the clip, unless there is none or it is zero. -/
def shownMask (bitmap : GlyphBitmap) (penX penY : Int) (clip : PixelClip) (x y : Int) : Option UInt8 :=
  let col := x - (penX + bitmap.left.toInt)
  let row := y - (penY - bitmap.top.toInt)
  if clip.Contains x y ∧ (0 ≤ col ∧ col < bitmap.width.toNat) ∧ 0 ≤ row ∧ row < bitmap.height.toNat then
    bitmap.alpha[row.toNat * bitmap.width.toNat + col.toNat]?.filter fun mask => mask ≠ 0
  else none

/-- A pixel after a color is composited onto it at some coverage. -/
def composite (Γ : Backend) (color : Rgba8) (mask : UInt8) (pixel : PremultipliedColorU8) : PremultipliedColorU8 :=
  (sourceOver Γ pixel color mask).getD pixel

/-- What a mask does to a pixel where it has that coverage. -/
def touch (Γ : Backend) (color : Rgba8) : Option UInt8 → PremultipliedColorU8 → PremultipliedColorU8
  | none, pixel => pixel
  | some mask, pixel => composite Γ color mask pixel

/-- Where a cell of a mask, by its row and its column, is composited, and how. -/
def target (Γ : Backend) (bitmap : GlyphBitmap) (color : Rgba8) (destX destY : Int) (stride : Nat) (cell : Int × Int) :
    Option (Nat × (PremultipliedColorU8 → PremultipliedColorU8)) :=
  (rowTarget destY stride cell.1).bind fun row =>
    (cellTarget bitmap destX row.1 row.2 cell.2).map fun hit => (hit.1, composite Γ color hit.2)

open Updates (update updateAll Separate)

/-- A cell of the mask updates at most one pixel. -/
theorem blitCell_eq (Γ : Backend) (bitmap : GlyphBitmap) (color : Rgba8) (destX : Int) (rowU32 : UInt32) (rowBase : Nat)
    (pixels : List PremultipliedColorU8) (col : Int) : blitCell Γ bitmap color destX rowU32 rowBase pixels col =
      update pixels ((cellTarget bitmap destX rowU32 rowBase col).map fun hit => (hit.1, composite Γ color hit.2)) := by
  unfold blitCell
  rcases cellTarget bitmap destX rowU32 rowBase col with _ | ⟨index, mask⟩
  · rfl
  simp only [Option.map_some, update]
  rw [List.modify_eq_set_getElem?]
  rcases hpixel : pixels[index]? with _ | pixel
  · rfl
  · obtain ⟨hlt, rfl⟩ := List.getElem?_eq_some_iff.1 hpixel
    simp only [Option.map_eq_map, Option.map_some, Option.getD_some, composite]
    rcases sourceOver Γ pixels[index] color mask with _ | blended
    · exact (List.set_getElem_self hlt).symm
    · rfl

/-- A row of the mask updates the pixels below its cells. -/
theorem blitRow_eq (Γ : Backend) (bitmap : GlyphBitmap) (color : Rgba8) (destX destY colStart colEnd : Int) (stride : Nat)
    (pixels : List PremultipliedColorU8) (row : Int) :
    blitRow Γ bitmap color destX destY colStart colEnd stride pixels row =
      updateAll (fun col => target Γ bitmap color destX destY stride (row, col)) pixels (Int.range colStart colEnd) := by
  unfold blitRow
  rcases hrow : rowTarget destY stride row with _ | ⟨rowU32, rowBase⟩
  · have hnone : ∀ col, target Γ bitmap color destX destY stride (row, col) = none := fun col => by
      simp only [target, hrow, Option.bind_none]
    simp only [updateAll, hnone, update, List.foldl_fixed]
  · have hsome : ∀ col, target Γ bitmap color destX destY stride (row, col) =
        (cellTarget bitmap destX rowU32 rowBase col).map fun hit => (hit.1, composite Γ color hit.2) := fun col => by
      simp only [target, hrow, Option.bind_some]
    simp only [updateAll, hsome, ← blitCell_eq]

/-- The columns of a mask, or its rows, that are visible: those of its extent that are between two edges of the canvas. -/
def visibleRange (dest lo hi extent : Int) : List Int := Int.range (max (lo - dest) 0) (min (hi - dest) extent)

/-- What is visible of a line of cells. -/
theorem mem_visibleRange {dest lo hi extent i : Int} :
    i ∈ visibleRange dest lo hi extent ↔ (lo ≤ dest + i ∧ dest + i < hi) ∧ 0 ≤ i ∧ i < extent := by
  unfold visibleRange
  rw [Int.mem_range_iff]
  omega

/-- No cell of a line is visible twice. -/
theorem nodup_visibleRange (dest lo hi extent : Int) : (visibleRange dest lo hi extent).Nodup :=
  List.Nodup.map (fun a b h => by simpa using h) List.nodup_range

/-- Outside of the clip nothing of a line is visible. -/
theorem visibleRange_eq_nil {dest lo hi extent : Int} (h : min (hi - dest) extent ≤ max (lo - dest) 0) :
    visibleRange dest lo hi extent = [] := by
  refine List.eq_nil_iff_forall_not_mem.2 fun i hi => ?_
  have := Int.mem_range_iff.1 hi
  omega

section

variable (Γ : Backend) (pixmap : Pixmap) (bitmap : GlyphBitmap) (penX penY : Int) (color : Rgba8) (clip : PixelClip)

/-- The visible cells of a mask, by row and column. -/
def visibleCells : List (Int × Int) :=
  visibleRange (penY - bitmap.top.toInt) (max clip.y0 0) (min clip.y1 pixmap.height.toNat) bitmap.height.toNat ×ˢ
    visibleRange (penX + bitmap.left.toInt) (max clip.x0 0) (min clip.x1 pixmap.width.toNat) bitmap.width.toNat

/-- The visible cells of a mask. -/
theorem mem_visibleCells {row col : Int} : (row, col) ∈ visibleCells pixmap bitmap penX penY clip ↔
    (((max clip.y0 0 ≤ penY - bitmap.top.toInt + row ∧
          penY - bitmap.top.toInt + row < min clip.y1 pixmap.height.toNat) ∧ 0 ≤ row ∧ row < bitmap.height.toNat) ∧
      (max clip.x0 0 ≤ penX + bitmap.left.toInt + col ∧
          penX + bitmap.left.toInt + col < min clip.x1 pixmap.width.toNat) ∧ 0 ≤ col ∧ col < bitmap.width.toNat) := by
  unfold visibleCells
  rw [List.mem_product, mem_visibleRange, mem_visibleRange]

/-- No cell is visible twice. -/
theorem nodup_visibleCells : (visibleCells pixmap bitmap penX penY clip).Nodup :=
  (nodup_visibleRange ..).product (nodup_visibleRange ..)

/-- Blitting updates the pixels of the visible cells. -/
theorem blitPixels_eq : blitPixels Γ pixmap bitmap penX penY color clip =
    updateAll (target Γ bitmap color (penX + bitmap.left.toInt) (penY - bitmap.top.toInt) pixmap.width.toNat) pixmap.pixels
      (visibleCells pixmap bitmap penX penY clip) := by
  have hnone : visibleCells pixmap bitmap penX penY clip = [] → pixmap.pixels =
      updateAll (target Γ bitmap color (penX + bitmap.left.toInt) (penY - bitmap.top.toInt) pixmap.width.toNat) pixmap.pixels
        (visibleCells pixmap bitmap penX penY clip) := by
    intro h
    rw [h]
    rfl
  have hstride : tryUsize (pixmap.width.toNat : Int) = some pixmap.width.toNat := by
    have hw := pixmap.width.toNat_lt
    refine tryUsize_eq_some.2 ⟨⟨by omega, ?_⟩, rfl⟩
    unfold usizeMax
    omega
  unfold blitPixels
  split
  · rename_i hzero
    refine hnone (List.eq_nil_iff_forall_not_mem.2 ?_)
    rintro ⟨row, col⟩ hcell
    have hmem := (mem_visibleCells pixmap bitmap penX penY clip).1 hcell
    rcases hzero with h | h
    · rw [h] at hmem
      have : ((0 : UInt32).toNat : Int) = 0 := rfl
      omega
    · rw [h] at hmem
      have : ((0 : UInt32).toNat : Int) = 0 := rfl
      omega
  · simp only [hstride]
    split
    · rename_i hempty
      refine hnone ?_
      unfold visibleCells
      rcases hempty with h | h
      · rw [visibleRange_eq_nil h, List.product_nil]
      · rw [visibleRange_eq_nil h, List.nil_product]
    · unfold visibleCells
      rw [← Updates.foldl_foldl_eq_updateAll]
      simp only [← blitRow_eq, visibleRange]

/-- A visible cell goes to the pixel it is placed on, with the coverage of the mask there. -/
theorem target_eq_some {row col : Int} (hcell : (row, col) ∈ visibleCells pixmap bitmap penX penY clip) {index : Nat}
    {f : PremultipliedColorU8 → PremultipliedColorU8} :
    target Γ bitmap color (penX + bitmap.left.toInt) (penY - bitmap.top.toInt) pixmap.width.toNat (row, col) = some (index, f) ↔
      ∃ mask, bitmap.alpha[row.toNat * bitmap.width.toNat + col.toNat]? = some mask ∧ mask ≠ 0 ∧
        index = (penY - bitmap.top.toInt + row).toNat * pixmap.width.toNat + (penX + bitmap.left.toInt + col).toNat ∧
        f = composite Γ color mask := by
  have hmem := (mem_visibleCells pixmap bitmap penX penY clip).1 hcell
  have hbw := bitmap.width.toNat_lt
  have hbh := bitmap.height.toNat_lt
  have hpw := pixmap.width.toNat_lt
  have hph := pixmap.height.toNat_lt
  obtain ⟨rowU32, hrow, hrowNat⟩ := tryU32_eq (i := row) (by omega) (by omega)
  obtain ⟨colU32, hcol, hcolNat⟩ := tryU32_eq (i := col) (by omega) (by omega)
  have hy : tryUsize (penY - bitmap.top.toInt + row) = some (penY - bitmap.top.toInt + row).toNat :=
    tryUsize_eq_some.2 ⟨⟨by omega, by unfold usizeMax; omega⟩, rfl⟩
  have hx : tryUsize (penX + bitmap.left.toInt + col) = some (penX + bitmap.left.toInt + col).toNat :=
    tryUsize_eq_some.2 ⟨⟨by omega, by unfold usizeMax; omega⟩, rfl⟩
  have hpixel := index_le_usizeMax (penY - bitmap.top.toInt + row).toNat (penX + bitmap.left.toInt + col).toNat
    pixmap.width.toNat (by omega) (by omega) (by omega)
  have hbase : checkedMul (penY - bitmap.top.toInt + row).toNat pixmap.width.toNat =
      some ((penY - bitmap.top.toInt + row).toNat * pixmap.width.toNat) :=
    checkedMul_eq_some.2 ⟨by omega, rfl⟩
  have hsum := checkedAdd_eq_some.2 ⟨hpixel, rfl⟩
  have hcoverage : bitmap.coverage colU32 rowU32 = bitmap.alpha[row.toNat * bitmap.width.toNat + col.toNat]? := by
    rw [coverage_eq, hrowNat, hcolNat]
    refine if_pos ?_
    rw [UInt32.lt_iff_toNat_lt, UInt32.lt_iff_toNat_lt]
    omega
  simp only [target, rowTarget, cellTarget, hrow, hy, hbase, hcol, hcoverage, hx, hsum, Option.bind_eq_bind, Option.bind_some,
    Option.pure_def]
  rcases bitmap.alpha[row.toNat * bitmap.width.toNat + col.toNat]? with _ | mask
  · simp
  · by_cases hzero : mask = 0
    · simp [hzero]
    · simp [hzero, eq_comm]

/-- The coverage that is shown at a pixel of the canvas. -/
theorem shownMask_eq_some {x y : Int} {mask : UInt8} : shownMask bitmap penX penY clip x y = some mask ↔
    (clip.Contains x y ∧ (0 ≤ x - (penX + bitmap.left.toInt) ∧ x - (penX + bitmap.left.toInt) < bitmap.width.toNat) ∧
      0 ≤ y - (penY - bitmap.top.toInt) ∧ y - (penY - bitmap.top.toInt) < bitmap.height.toNat) ∧
    bitmap.alpha[(y - (penY - bitmap.top.toInt)).toNat * bitmap.width.toNat +
      (x - (penX + bitmap.left.toInt)).toNat]? = some mask ∧ mask ≠ 0 := by
  simp only [shownMask, Option.ite_none_right_eq_some, Option.filter_eq_some_iff, decide_eq_true_eq]

/-- The cells that blitting updates are the pixels it shows, each with the coverage there. -/
theorem target_iff_shownMask {x y : Int} (hx : 0 ≤ x ∧ x < pixmap.width.toNat) (hy : 0 ≤ y ∧ y < pixmap.height.toNat)
    {f : PremultipliedColorU8 → PremultipliedColorU8} :
    (∃ cell ∈ visibleCells pixmap bitmap penX penY clip,
      target Γ bitmap color (penX + bitmap.left.toInt) (penY - bitmap.top.toInt) pixmap.width.toNat cell =
        some (y.toNat * pixmap.width.toNat + x.toNat, f)) ↔
    ∃ mask, shownMask bitmap penX penY clip x y = some mask ∧ f = composite Γ color mask := by
  constructor
  · rintro ⟨⟨row, col⟩, hcell, htarget⟩
    obtain ⟨mask, hmask, hne, hindex, rfl⟩ := (target_eq_some Γ pixmap bitmap penX penY color clip hcell).1 htarget
    have hmem := (mem_visibleCells pixmap bitmap penX penY clip).1 hcell
    obtain ⟨hxs, hys⟩ := index_inj (by omega) (by omega) hindex
    have hrow : y - (penY - bitmap.top.toInt) = row := by omega
    have hcol : x - (penX + bitmap.left.toInt) = col := by omega
    refine ⟨mask, (shownMask_eq_some bitmap penX penY clip).2 ?_, rfl⟩
    rw [hrow, hcol]
    exact ⟨⟨⟨⟨by omega, by omega⟩, by omega, by omega⟩, ⟨by omega, by omega⟩, by omega, by omega⟩, hmask, hne⟩
  · rintro ⟨mask, hshown, rfl⟩
    obtain ⟨⟨⟨⟨hx0, hx1⟩, hy0, hy1⟩, hcol, hrow⟩, hmask, hne⟩ := (shownMask_eq_some bitmap penX penY clip).1 hshown
    have hcell : (y - (penY - bitmap.top.toInt), x - (penX + bitmap.left.toInt)) ∈
        visibleCells pixmap bitmap penX penY clip := by
      rw [mem_visibleCells]
      omega
    refine ⟨_, hcell, (target_eq_some Γ pixmap bitmap penX penY color clip hcell).2 ⟨mask, hmask, hne, ?_, rfl⟩⟩
    rw [add_sub_cancel, add_sub_cancel]

/-- No two visible cells are composited onto the same pixel. -/
theorem separate_visibleCells : Separate
    (target Γ bitmap color (penX + bitmap.left.toInt) (penY - bitmap.top.toInt) pixmap.width.toNat)
    (visibleCells pixmap bitmap penX penY clip) := by
  refine Updates.separate_of_nodup (nodup_visibleCells pixmap bitmap penX penY clip) ?_
  rintro ⟨row, col⟩ hcell ⟨row', col'⟩ hcell' index f g hf hg
  obtain ⟨-, -, -, hindex, -⟩ := (target_eq_some Γ pixmap bitmap penX penY color clip hcell).1 hf
  obtain ⟨-, -, -, hindex', -⟩ := (target_eq_some Γ pixmap bitmap penX penY color clip hcell').1 hg
  have hmem := (mem_visibleCells pixmap bitmap penX penY clip).1 hcell
  have hmem' := (mem_visibleCells pixmap bitmap penX penY clip).1 hcell'
  obtain ⟨hx, hy⟩ := index_inj (by omega) (by omega) (hindex.symm.trans hindex')
  exact Prod.ext (by show row = row'; omega) (by show col = col'; omega)

/-- What a blit does to one pixel. -/
theorem pixel_blit (x y : Int) : (blit Γ pixmap bitmap penX penY color clip).pixel x y =
    (pixmap.pixel x y).map (touch Γ color (shownMask bitmap penX penY clip x y)) := by
  unfold Pixmap.pixel
  show (if (0 ≤ x ∧ x < pixmap.width.toNat) ∧ 0 ≤ y ∧ y < pixmap.height.toNat then
    (blitPixels Γ pixmap bitmap penX penY color clip)[y.toNat * pixmap.width.toNat + x.toNat]? else none) = _
  by_cases hon : (0 ≤ x ∧ x < pixmap.width.toNat) ∧ 0 ≤ y ∧ y < pixmap.height.toNat
  · rw [if_pos hon, if_pos hon, blitPixels_eq]
    have hiff := fun f => target_iff_shownMask Γ pixmap bitmap penX penY color clip hon.1 hon.2 (f := f)
    rcases hshown : shownMask bitmap penX penY clip x y with _ | mask
    · refine Eq.trans (Updates.getElem?_updateAll_of_forall _ ?_) Option.map_id'.symm
      intro cell hcell f htarget
      obtain ⟨mask, hmask, -⟩ := (hiff f).1 ⟨cell, hcell, htarget⟩
      rw [hshown] at hmask
      cases hmask
    · obtain ⟨cell, hcell, htarget⟩ := (hiff _).2 ⟨mask, hshown, rfl⟩
      exact Updates.getElem?_updateAll_of_mem (separate_visibleCells Γ pixmap bitmap penX penY color clip) hcell htarget
  · rw [if_neg hon, if_neg hon]
    rfl

end

end Gfx

end ChromeLight
