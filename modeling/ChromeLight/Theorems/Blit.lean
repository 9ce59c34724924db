import ChromeLight.Lemmas.Glyphs

/-!
# Blitting a mask

Blitting composites exactly the pixels where a cell of the mask is visible, each once and with the coverage of its cell, and
leaves every other pixel as it is (`blit_spec`). On an opaque canvas every pixel stays opaque, and none that is visible is left
out (`blits_opaque`).
-/

namespace ChromeLight

namespace Gfx

variable {Γ : Backend} {pixmap : Pixmap} {bitmap : GlyphBitmap} {penX penY : Int} {color : Rgba8} {clip : PixelClip}

/-! ## The cells that are composited -/

/-- A cell of a mask in range, with coverage that is there and not zero, is at a pixel inside the clip and the canvas. -/
structure ShowsCell (pixmap : Pixmap) (bitmap : GlyphBitmap) (penX penY : Int) (clip : PixelClip) (col row : Nat)
    (mask : UInt8) (x y : Nat) : Prop where
  col_lt : col < bitmap.width.toNat
  row_lt : row < bitmap.height.toNat
  coverage : bitmap.alpha[row * bitmap.width.toNat + col]? = some mask
  nonzero : mask ≠ 0
  x_eq : (x : Int) = penX + bitmap.left.toInt + col
  y_eq : (y : Int) = penY - bitmap.top.toInt + row
  clip : clip.Contains x y
  x_lt : x < pixmap.width.toNat
  y_lt : y < pixmap.height.toNat

/-- The number is an `i64`. -/
def IsI64 (i : Int) : Prop := -9223372036854775808 ≤ i ∧ i ≤ 9223372036854775807

/-- What blitting a mask does to the pixels of a canvas. -/
structure Blitted (Γ : Backend) (pixmap : Pixmap) (bitmap : GlyphBitmap) (penX penY : Int) (color : Rgba8) (clip : PixelClip)
    (out : Pixmap) : Prop where
  size : out.width = pixmap.width ∧ out.height = pixmap.height ∧ out.pixels.length = pixmap.pixels.length
  /-- The coverage of a cell is the byte of its row and column, wherever the data reach that far. -/
  coverage : ∀ col row : UInt32, bitmap.coverage col row =
    if col < bitmap.width ∧ row < bitmap.height then bitmap.alpha[row.toNat * bitmap.width.toNat + col.toNat]? else none
  /-- Every visible cell is composited once, with its coverage, onto what the pixel was before. -/
  composited : ∀ col row mask x y, ShowsCell pixmap bitmap penX penY clip col row mask x y →
    out.pixels[y * pixmap.width.toNat + x]? = pixmap.pixels[y * pixmap.width.toNat + x]?.map (composite Γ color mask)
  /-- Every other pixel is kept. -/
  kept : ∀ index, (∀ col row mask x y, ShowsCell pixmap bitmap penX penY clip col row mask x y →
    index ≠ y * pixmap.width.toNat + x) → out.pixels[index]? = pixmap.pixels[index]?
  /-- With a pen and a clip of `i32`s, every coordinate is an `i64`. -/
  exact : Au.IsI32 penX → Au.IsI32 penY → Au.IsI32 clip.x0 → Au.IsI32 clip.y0 → Au.IsI32 clip.x1 → Au.IsI32 clip.y1 →
    IsI64 (max clip.x0 0 - (penX + bitmap.left.toInt)) ∧
    IsI64 (min clip.x1 pixmap.width.toNat - (penX + bitmap.left.toInt)) ∧
    IsI64 (max clip.y0 0 - (penY - bitmap.top.toInt)) ∧
    IsI64 (min clip.y1 pixmap.height.toNat - (penY - bitmap.top.toInt)) ∧
    ∀ i : Int, 0 ≤ i → i < 4294967296 → IsI64 (penX + bitmap.left.toInt + i) ∧ IsI64 (penY - bitmap.top.toInt + i)

/-- A visible cell is shown at its pixel. -/
theorem ShowsCell.shownMask {col row x y : Nat} {mask : UInt8} (h : ShowsCell pixmap bitmap penX penY clip col row mask x y) :
    shownMask bitmap penX penY clip x y = some mask := by
  obtain ⟨hcol, hrow, hmask, hne, hx, hy, hclip, -, -⟩ := h
  have ecol : (x : Int) - (penX + bitmap.left.toInt) = col := by omega
  have erow : (y : Int) - (penY - bitmap.top.toInt) = row := by omega
  refine (shownMask_eq_some bitmap penX penY clip).2 ?_
  rw [ecol, erow]
  exact ⟨⟨hclip, ⟨by omega, by omega⟩, by omega, by omega⟩, hmask, hne⟩

/-- What is shown at a pixel of the canvas is a visible cell. -/
theorem showsCell_of_shownMask {x y : Nat} {mask : UInt8} (hx : x < pixmap.width.toNat) (hy : y < pixmap.height.toNat)
    (h : Gfx.shownMask bitmap penX penY clip x y = some mask) :
    ∃ col row, ShowsCell pixmap bitmap penX penY clip col row mask x y := by
  obtain ⟨⟨hclip, hcol, hrow⟩, hmask, hne⟩ := (shownMask_eq_some bitmap penX penY clip).1 h
  exact ⟨_, _, by omega, by omega, hmask, hne, by omega, by omega, hclip, hx, hy⟩

/-- A pixel of the canvas by its row and column, and by its index. -/
theorem pixel_eq_getElem? (pixmap : Pixmap) {x y : Nat} (hx : x < pixmap.width.toNat) (hy : y < pixmap.height.toNat) :
    pixmap.pixel x y = pixmap.pixels[y * pixmap.width.toNat + x]? := by
  unfold Pixmap.pixel
  rw [if_pos ⟨⟨by omega, by omega⟩, by omega, by omega⟩]
  rfl

/-- Every index of the pixels is that of a row and a column. -/
theorem exists_coordinates {pixmap : Pixmap} {index : Nat} (h : index < pixmap.pixels.length) :
    ∃ x y, x < pixmap.width.toNat ∧ y < pixmap.height.toNat ∧ index = y * pixmap.width.toNat + x := by
  rw [pixmap.size] at h
  have hpos : 0 < pixmap.width.toNat := Nat.pos_of_ne_zero fun h0 => by simp [h0] at h
  refine ⟨index % pixmap.width.toNat, index / pixmap.width.toNat, Nat.mod_lt _ hpos, ?_, ?_⟩
  · exact Nat.div_lt_of_lt_mul h
  · rw [Nat.mul_comm]
    exact (Nat.div_add_mod index pixmap.width.toNat).symm

/-- Blitting composites the visible cells of a mask and changes nothing else, wherever the mask is placed. -/
theorem blit_spec (Γ : Backend) (pixmap : Pixmap) (bitmap : GlyphBitmap) (penX penY : Int) (color : Rgba8) (clip : PixelClip) :
    Blitted Γ pixmap bitmap penX penY color clip (blit Γ pixmap bitmap penX penY color clip) := by
  have hlen := length_blitPixels Γ pixmap bitmap penX penY color clip
  refine ⟨⟨rfl, rfl, hlen⟩, coverage_eq bitmap, ?_, ?_, ?_⟩
  · intro col row mask x y h
    have hpixel := pixel_blit Γ pixmap bitmap penX penY color clip x y
    rw [h.shownMask, pixel_eq_getElem? pixmap h.x_lt h.y_lt] at hpixel
    exact (pixel_eq_getElem? (blit Γ pixmap bitmap penX penY color clip) h.x_lt h.y_lt).symm.trans hpixel
  · intro index hother
    by_cases hin : index < pixmap.pixels.length
    · obtain ⟨x, y, hx, hy, rfl⟩ := exists_coordinates hin
      have hnone : shownMask bitmap penX penY clip x y = none := by
        refine Option.eq_none_iff_forall_ne_some.2 fun mask hmask => ?_
        obtain ⟨col, row, hshows⟩ := showsCell_of_shownMask hx hy hmask
        exact hother col row mask x y hshows rfl
      have hpixel := pixel_blit Γ pixmap bitmap penX penY color clip x y
      rw [hnone, pixel_eq_getElem? pixmap hx hy] at hpixel
      refine (pixel_eq_getElem? (blit Γ pixmap bitmap penX penY color clip) hx hy).symm.trans (hpixel.trans ?_)
      exact Option.map_id'
    · have h1 : pixmap.pixels.length ≤ index := not_lt.1 hin
      have h2 : (blit Γ pixmap bitmap penX penY color clip).pixels.length ≤ index := hlen.trans_le h1
      rw [List.getElem?_eq_none h1, List.getElem?_eq_none h2]
  · rintro ⟨hpx0, hpx1⟩ ⟨hpy0, hpy1⟩ ⟨hx0, hx0'⟩ ⟨hy0, hy0'⟩ ⟨hx1, hx1'⟩ ⟨hy1, hy1'⟩
    have hl0 := bitmap.left.le_toInt
    have hl1 := bitmap.left.toInt_lt
    have ht0 := bitmap.top.le_toInt
    have ht1 := bitmap.top.toInt_lt
    have hw := pixmap.width.toNat_lt
    have hh := pixmap.height.toNat_lt
    unfold IsI64
    refine ⟨by omega, by omega, by omega, by omega, fun i hi0 hi1 => ⟨by omega, by omega⟩⟩

/-! ## Opaque canvases -/

/-- Every pixel is a premultiplied color whose alpha is 255. -/
def Pixmap.Opaque (p : Pixmap) : Prop := ∀ c ∈ p.pixels, c.Valid ∧ c.alpha = 255

instance (p : Pixmap) : Decidable p.Opaque := inferInstanceAs (Decidable (∀ _ ∈ _, _))

/-- A mask and where and how it is blitted. -/
structure BlitCall where
  bitmap : GlyphBitmap
  penX : Int
  penY : Int
  color : Rgba8
  clip : PixelClip

def BlitCall.apply (Γ : Backend) (p : Pixmap) (call : BlitCall) : Pixmap := blit Γ p call.bitmap call.penX call.penY call.color call.clip

/-- What a pixel composites to when it is opaque is opaque. -/
theorem composite_opaque (law : Γ.Premultiplies) {dst : PremultipliedColorU8} (h : dst.Valid ∧ dst.alpha = 255) (color : Rgba8)
    (mask : UInt8) :
    (composite Γ color mask dst).Valid ∧ (composite Γ color mask dst).alpha = 255 := by
  unfold composite
  by_cases ha : mul255 mask color.a = 0
  · rw [(sourceOver_eq_none law h.1 color mask).2 ha]
    exact h
  · obtain ⟨out, hout, hcomp⟩ := sourceOver_eq law h.1 color mask ha
    rw [hout, Option.getD_some]
    refine ⟨hcomp.valid, UInt8.toNat_inj.1 ?_⟩
    have hbyte := (mul255 mask color.a).toNat_lt
    rw [hcomp.alpha, h.2, mul255_full, toNat_inv]
    show _ = 255
    omega

theorem touch_opaque (law : Γ.Premultiplies) {dst : PremultipliedColorU8} (h : dst.Valid ∧ dst.alpha = 255) (color : Rgba8)
    (mask : Option UInt8) :
    (touch Γ color mask dst).Valid ∧ (touch Γ color mask dst).alpha = 255 := by
  cases mask with
  | none => exact h
  | some mask => exact composite_opaque law h color mask

/-- A pixmap is opaque if each of its coordinates is. -/
theorem opaque_iff {p : Pixmap} : p.Opaque ↔ ∀ x y c, p.pixel x y = some c → c.Valid ∧ c.alpha = 255 := by
  constructor
  · intro h x y c hc
    unfold Pixmap.pixel at hc
    split at hc
    · exact h c (List.mem_of_getElem? hc)
    · cases hc
  · intro h c hc
    obtain ⟨index, hlt, rfl⟩ := List.getElem_of_mem hc
    obtain ⟨x, y, hx, hy, hindex⟩ := exists_coordinates hlt
    refine h x y _ ((pixel_eq_getElem? p hx hy).trans ?_)
    rw [← hindex]
    exact List.getElem?_eq_getElem hlt

theorem Pixmap.Opaque.blit (law : Γ.Premultiplies) {p : Pixmap} (h : p.Opaque) (call : BlitCall) : (call.apply Γ p).Opaque := by
  rw [opaque_iff] at h ⊢
  intro x y c hc
  rw [BlitCall.apply, pixel_blit] at hc
  obtain ⟨dst, hdst, rfl⟩ := Option.map_eq_some_iff.1 hc
  exact touch_opaque law (h x y dst hdst) call.color _

theorem Pixmap.Opaque.blits (law : Γ.Premultiplies) {p : Pixmap} (h : p.Opaque) (calls : List BlitCall) :
    (calls.foldl (BlitCall.apply Γ) p).Opaque := by
  induction calls generalizing p with
  | nil => exact h
  | cons call calls ih => exact ih (h.blit law call)

/-- The blend of a valid pixel with any color at any coverage. -/
structure Blends (Γ : Backend) (dst : PremultipliedColorU8) (color : Rgba8) (mask : UInt8) : Prop where
  /-- No sum of a channel is larger than a byte. -/
  sums : (mul255 color.r (mul255 mask color.a)).toNat + (mul255 dst.red (255 - mul255 mask color.a)).toNat ≤ 255 ∧
    (mul255 color.g (mul255 mask color.a)).toNat + (mul255 dst.green (255 - mul255 mask color.a)).toNat ≤ 255 ∧
    (mul255 color.b (mul255 mask color.a)).toNat + (mul255 dst.blue (255 - mul255 mask color.a)).toNat ≤ 255 ∧
    (mul255 mask color.a).toNat + (mul255 dst.alpha (255 - mul255 mask color.a)).toNat ≤ 255
  /-- It is refused only where the effective alpha is zero. -/
  refused : sourceOver Γ dst color mask = none ↔ mul255 mask color.a = 0
  valid : ∀ out, sourceOver Γ dst color mask = some out → out.Valid

theorem blends (law : Γ.Premultiplies) {dst : PremultipliedColorU8} (h : dst.Valid) (color : Rgba8) (mask : UInt8) :
    Blends Γ dst color mask := by
  have hred := blend_le (mul255 mask color.a) color.r (UInt8.le_iff_toNat_le.1 h.1)
  have hgreen := blend_le (mul255 mask color.a) color.g (UInt8.le_iff_toNat_le.1 h.2.1)
  have hblue := blend_le (mul255 mask color.a) color.b (UInt8.le_iff_toNat_le.1 h.2.2)
  refine ⟨⟨hred.1.trans hred.2, hgreen.1.trans hgreen.2, hblue.1.trans hblue.2, hred.2⟩, sourceOver_eq_none law h color mask, ?_⟩
  intro out hout
  have ha : mul255 mask color.a ≠ 0 := fun ha => by
    rw [(sourceOver_eq_none law h color mask).2 ha] at hout
    cases hout
  obtain ⟨out', hout', hcomp⟩ := sourceOver_eq law h color mask ha
  rw [hout'] at hout
  exact Option.some.inj hout ▸ hcomp.valid

/-- What blitting masks one after the other does to an opaque canvas. -/
structure StaysOpaque (Γ : Backend) (pixmap : Pixmap) (calls : List BlitCall) : Prop where
  /-- The colors that `tiny-skia` accepts are the premultiplied ones. -/
  accepts : ∀ r g b a, (Γ.fromRgba r g b a).isSome = true ↔ r ≤ a ∧ g ≤ a ∧ b ≤ a
  blends : ∀ dst : PremultipliedColorU8, dst.Valid → ∀ color mask, Blends Γ dst color mask
  pixels : (calls.foldl (BlitCall.apply Γ) pixmap).Opaque
  /-- Wherever a mask is visible on the canvas, and its effective alpha is not zero, the blended pixel is accepted and painted. -/
  painted : ∀ call : BlitCall, ∀ x y mask dst, shownMask call.bitmap call.penX call.penY call.clip x y = some mask →
    (calls.foldl (BlitCall.apply Γ) pixmap).pixel x y = some dst → mul255 mask call.color.a ≠ 0 →
    ∃ out, sourceOver Γ dst call.color mask = some out ∧
      (call.apply Γ (calls.foldl (BlitCall.apply Γ) pixmap)).pixel x y = some out

/-- An opaque canvas stays opaque under any masks, and no visible pixel is left out. -/
theorem blits_opaque (Γ : Backend) (law : Γ.Premultiplies) (pixmap : Pixmap) (h : pixmap.Opaque) (calls : List BlitCall) :
    StaysOpaque Γ pixmap calls := by
  have hafter := h.blits law calls
  refine ⟨?_, fun dst hdst color mask => Gfx.blends law hdst color mask, hafter, ?_⟩
  · intro r g b a
    rw [law]
    split <;> simp_all
  · intro call x y mask dst hmask hdst ha
    obtain ⟨out, hout, -⟩ := sourceOver_eq law (opaque_iff.1 hafter x y dst hdst).1 call.color mask ha
    refine ⟨out, hout, ?_⟩
    rw [BlitCall.apply, pixel_blit, hdst, hmask]
    show some (composite Γ call.color mask dst) = some out
    rw [composite, hout, Option.getD_some]

/-- A translucent red mask over a corner of a white canvas. -/
theorem blits_opaque_sample : (Pixmap.white 2 2).Opaque ∧ StaysOpaque .sample (Pixmap.white 2 2)
    [⟨⟨-1, 0, 2, 1, [255, 128]⟩, 0, 0, ⟨255, 0, 0, 128⟩, ⟨0, 0, 2, 2⟩⟩] :=
  ⟨by decide, blits_opaque .sample premultiplies_sample _ (by decide) _⟩

end Gfx

end ChromeLight
