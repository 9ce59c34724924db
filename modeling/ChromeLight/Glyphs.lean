import ChromeLight.Raster
import Mathlib.Data.List.AList
import Mathlib.Data.Int.Range
import Mathlib.Algebra.GroupWithZero.Nat

/-!
# Glyph masks on the pixmap

How `cl-gfx` paints the glyphs of a run: the mask of a glyph comes from `swash`, or from the cache of the masks it made before,
and is composited with the color of the run, pixel by pixel, onto the pixmap of `tiny-skia`. What the two crates do themselves
is a parameter (`Backend`), apart from how a pixmap stores its pixels.

Coordinates are `i64` in the code and integers here. A `u32` is always a `usize`; that a `usize` has 64 bits is assumed.
-/

namespace ChromeLight

namespace Gfx

/-- The number if it is a `u32`. -/
def tryU32 (i : Int) : Option UInt32 := if 0 ≤ i ∧ i < 4294967296 then some (UInt32.ofNat i.toNat) else none

/-- The number if it is a `usize`. -/
def tryUsize (i : Int) : Option Nat := if 0 ≤ i ∧ i ≤ usizeMax then some i.toNat else none

/-- The product if it is a `usize`. -/
def checkedMul (a b : Nat) : Option Nat := if a * b ≤ usizeMax then some (a * b) else none

/-- The sum if it is a `usize`. -/
def checkedAdd (a b : Nat) : Option Nat := if a + b ≤ usizeMax then some (a + b) else none

/-! ## Colors -/

/-- A pixel, its channels multiplied by its alpha. -/
structure PremultipliedColorU8 where
  red : UInt8
  green : UInt8
  blue : UInt8
  alpha : UInt8
deriving DecidableEq, Repr

namespace PremultipliedColorU8

/-- No channel is larger than alpha. -/
def Valid (c : PremultipliedColorU8) : Prop := c.red ≤ c.alpha ∧ c.green ≤ c.alpha ∧ c.blue ≤ c.alpha

instance (c : PremultipliedColorU8) : Decidable c.Valid := inferInstanceAs (Decidable (_ ∧ _))

end PremultipliedColorU8

/-- `a * b / 255`, rounded, in integers. -/
def mul255 (a b : UInt8) : UInt8 :=
  let t : UInt32 := a.toUInt32 * b.toUInt32 + 128
  let scaled := (t + (t >>> 8)) >>> 8
  scaled.toUInt8

/-- The sum of two bytes, at most 255. -/
def saturatingAddU8 (a b : UInt8) : UInt8 := if 255 < a.toNat + b.toNat then 255 else a + b

/-- A channel of a color over one of the pixel below it. -/
def blend (alpha inv src dst : UInt8) : UInt8 := saturatingAddU8 (mul255 src alpha) (mul255 dst inv)

/-! ## The pixmap -/

/-- A pixmap: its pixels row by row. -/
structure Pixmap where
  width : UInt32
  height : UInt32
  pixels : List PremultipliedColorU8
  size : pixels.length = width.toNat * height.toNat
deriving DecidableEq, Repr

/-- The pixel at a coordinate of the canvas, or none outside of it. -/
def Pixmap.pixel (p : Pixmap) (x y : Int) : Option PremultipliedColorU8 :=
  if (0 ≤ x ∧ x < p.width.toNat) ∧ 0 ≤ y ∧ y < p.height.toNat then p.pixels[y.toNat * p.width.toNat + x.toNat]? else none

/-! ## Masks -/

/-- The coverage mask of a glyph, and where it sits relative to the pen. -/
structure GlyphBitmap where
  left : Int32
  top : Int32
  width : UInt32
  height : UInt32
  /-- Row by row, a byte a pixel. -/
  alpha : List UInt8
deriving DecidableEq, Repr

namespace GlyphBitmap

/-- The mask of a glyph without an outline. -/
def default : GlyphBitmap := ⟨0, 0, 0, 0, []⟩

/-- The coverage of a cell, if it is in range and the data reach that far. -/
def coverage (bitmap : GlyphBitmap) (col row : UInt32) : Option UInt8 :=
  if bitmap.width ≤ col ∨ bitmap.height ≤ row then none
  else do
    let base ← checkedMul row.toNat bitmap.width.toNat
    let index ← checkedAdd base col.toNat
    bitmap.alpha[index]?

/-- What the mask costs the cache. -/
def byteSize (bitmap : GlyphBitmap) : Nat := bitmap.alpha.length

end GlyphBitmap

/-! ## What is outside of the crate -/

/-- What `swash` and `tiny-skia` do: an app unit as the size handed to the scaler, the mask of a glyph of a face at a size if
the glyph has an outline, a pixel with given channels, and a rect filled with a color. The rect is given by its edges: their conversion
to floats (`to_skia`) is part of filling it. -/
structure Backend where
  toPx : Au → F32
  render : FontKey → F32 → UInt16 → Option GlyphBitmap
  /-- `PremultipliedColorU8::from_rgba` -/
  fromRgba : UInt8 → UInt8 → UInt8 → UInt8 → Option PremultipliedColorU8
  fillRect : Pixmap → Au → Au → Au → Au → Rgba8 → Pixmap

/-- `from_rgba` makes the pixel with those channels, unless one of them is larger than alpha. -/
def Backend.Premultiplies (Γ : Backend) : Prop := ∀ red green blue alpha, Γ.fromRgba red green blue alpha =
  if red ≤ alpha ∧ green ≤ alpha ∧ blue ≤ alpha then some ⟨red, green, blue, alpha⟩ else none

/-! ## Blitting -/

/-- Composite a color at some coverage onto a pixel, or none if there is nothing to do. -/
def sourceOver (Γ : Backend) (dst : PremultipliedColorU8) (color : Rgba8) (mask : UInt8) : Option PremultipliedColorU8 :=
  let alpha := mul255 mask color.a
  if alpha = 0 then none
  else
    let inv := 255 - alpha
    Γ.fromRgba (blend alpha inv color.r dst.red) (blend alpha inv color.g dst.green) (blend alpha inv color.b dst.blue)
      (saturatingAddU8 alpha (mul255 dst.alpha inv))

/-- The pixel a cell of a mask is composited onto, by its index, and the coverage, if there is something to composite. -/
def cellTarget (bitmap : GlyphBitmap) (destX : Int) (rowU32 : UInt32) (rowBase : Nat) (col : Int) : Option (Nat × UInt8) := do
  let colU32 ← tryU32 col
  let mask ← bitmap.coverage colU32 rowU32
  if mask = 0 then none
  else
    let x ← tryUsize (destX + col)
    let index ← checkedAdd rowBase x
    pure (index, mask)

/-- Composite one cell of a mask onto the pixels. -/
def blitCell (Γ : Backend) (bitmap : GlyphBitmap) (color : Rgba8) (destX : Int) (rowU32 : UInt32) (rowBase : Nat)
    (pixels : List PremultipliedColorU8) (col : Int) : List PremultipliedColorU8 :=
  match cellTarget bitmap destX rowU32 rowBase col with
  | none => pixels
  | some (index, mask) =>
    match pixels[index]? with
    | none => pixels
    | some pixel =>
      match sourceOver Γ pixel color mask with
      | none => pixels
      | some blended => pixels.set index blended

/-- The row of a mask as a `u32`, and the index where the pixels of the row below it start. -/
def rowTarget (destY : Int) (stride : Nat) (row : Int) : Option (UInt32 × Nat) := do
  let rowU32 ← tryU32 row
  let y ← tryUsize (destY + row)
  let rowBase ← checkedMul y stride
  pure (rowU32, rowBase)

/-- Composite the visible columns of one row of a mask onto the pixels. -/
def blitRow (Γ : Backend) (bitmap : GlyphBitmap) (color : Rgba8) (destX destY colStart colEnd : Int) (stride : Nat)
    (pixels : List PremultipliedColorU8) (row : Int) : List PremultipliedColorU8 :=
  match rowTarget destY stride row with
  | none => pixels
  | some (rowU32, rowBase) => (Int.range colStart colEnd).foldl (blitCell Γ bitmap color destX rowU32 rowBase) pixels

/-- The pixels after a mask is composited onto a pixmap with its pen at a device pixel. -/
def blitPixels (Γ : Backend) (pixmap : Pixmap) (bitmap : GlyphBitmap) (penX penY : Int) (color : Rgba8) (clip : PixelClip) :
    List PremultipliedColorU8 :=
  if bitmap.width = 0 ∨ bitmap.height = 0 then pixmap.pixels
  else
    -- the offset upward of the mask is subtracted: device coordinates grow downward
    let destX := penX + bitmap.left.toInt
    let destY := penY - bitmap.top.toInt
    let canvasW : Int := pixmap.width.toNat
    let canvasH : Int := pixmap.height.toNat
    let x0 := max clip.x0 0
    let y0 := max clip.y0 0
    let x1 := min clip.x1 canvasW
    let y1 := min clip.y1 canvasH
    let colStart := max (x0 - destX) 0
    let colEnd := min (x1 - destX) bitmap.width.toNat
    let rowStart := max (y0 - destY) 0
    let rowEnd := min (y1 - destY) bitmap.height.toNat
    if colEnd ≤ colStart ∨ rowEnd ≤ rowStart then pixmap.pixels
    else
      match tryUsize canvasW with
      | none => pixmap.pixels
      | some stride =>
        (Int.range rowStart rowEnd).foldl (blitRow Γ bitmap color destX destY colStart colEnd stride) pixmap.pixels

theorem length_foldl {α β : Type} {f : List α → β → List α} (h : ∀ l b, (f l b).length = l.length) (bs : List β) (l : List α) :
    (bs.foldl f l).length = l.length := by
  induction bs generalizing l with
  | nil => rfl
  | cons b bs ih => exact (ih _).trans (h l b)

theorem length_blitCell (Γ : Backend) (bitmap : GlyphBitmap) (color : Rgba8) (destX : Int) (rowU32 : UInt32) (rowBase : Nat)
    (pixels : List PremultipliedColorU8) (col : Int) :
    (blitCell Γ bitmap color destX rowU32 rowBase pixels col).length = pixels.length := by
  unfold blitCell
  split
  · rfl
  · split
    · rfl
    · split
      · rfl
      · exact List.length_set

theorem length_blitRow (Γ : Backend) (bitmap : GlyphBitmap) (color : Rgba8) (destX destY colStart colEnd : Int) (stride : Nat)
    (pixels : List PremultipliedColorU8) (row : Int) :
    (blitRow Γ bitmap color destX destY colStart colEnd stride pixels row).length = pixels.length := by
  unfold blitRow
  split
  · rfl
  · exact length_foldl (length_blitCell Γ bitmap color destX _ _) _ pixels

theorem length_blitPixels (Γ : Backend) (pixmap : Pixmap) (bitmap : GlyphBitmap) (penX penY : Int) (color : Rgba8) (clip : PixelClip) :
    (blitPixels Γ pixmap bitmap penX penY color clip).length = pixmap.pixels.length := by
  unfold blitPixels
  split
  · rfl
  · simp only
    split
    · rfl
    · split
      · rfl
      · exact length_foldl (length_blitRow Γ bitmap color _ _ _ _ _) _ pixmap.pixels

/-- Composite a mask onto a pixmap with its pen at a device pixel. -/
def blit (Γ : Backend) (pixmap : Pixmap) (bitmap : GlyphBitmap) (penX penY : Int) (color : Rgba8) (clip : PixelClip) : Pixmap :=
  { pixmap with
    pixels := blitPixels Γ pixmap bitmap penX penY color clip
    size := (length_blitPixels Γ pixmap bitmap penX penY color clip).trans pixmap.size }

/-! ## The cache -/

/-- What identifies a rasterized glyph: its face, its id in it, and the size in app units. -/
abbrev GlyphKey := FontKey × UInt16 × Nat

/-- The largest total payload the cache holds, in bytes. -/
def maxCacheBytes : Nat := 16 * 1024 * 1024

/-- The masks that were rasterized, and how many bytes they are. -/
structure GlyphCache where
  map : AList fun _ : GlyphKey => GlyphBitmap
  bytes : Nat

namespace GlyphCache

def default : GlyphCache := ⟨∅, 0⟩

def get (cache : GlyphCache) (key : GlyphKey) : Option GlyphBitmap := cache.map.lookup key

/-- Store a mask, unless the byte budget is exhausted, and return it either way. -/
def insert (cache : GlyphCache) (key : GlyphKey) (bitmap : GlyphBitmap) : GlyphBitmap × GlyphCache :=
  let cost := bitmap.byteSize
  if min (cache.bytes + cost) usizeMax ≤ maxCacheBytes then
    (bitmap, { map := cache.map.insert key bitmap, bytes := min (cache.bytes + cost) usizeMax })
  else (bitmap, cache)

end GlyphCache

/-! ## Runs -/

/-- How many masks were rasterized, and how many glyphs were served from the cache. -/
structure RasterStats where
  glyphsRendered : Nat
  cacheHits : Nat
deriving DecidableEq, Repr

def RasterStats.default : RasterStats := ⟨0, 0⟩

/-- One more, at most the largest `u64`. -/
def countOne (n : Nat) : Nat := min (n + 1) 18446744073709551615

/-- What painting a run changes. -/
structure Painting where
  cache : GlyphCache
  pixmap : Pixmap
  stats : RasterStats

/-- The size in the key of a glyph. -/
def sizeKey (size : Au) : Nat := if 0 ≤ size.units then size.units.toNat else u32Max

/-- The mask of a glyph, from the cache or rasterized. -/
def glyphBitmap (Γ : Backend) (run : GlyphRun) (s : Painting) (glyph : Glyph) : GlyphBitmap × Painting :=
  let key := (run.font, glyph.id, sizeKey run.size)
  match s.cache.get key with
  | some hit => (hit, { s with stats := { s.stats with cacheHits := countOne s.stats.cacheHits } })
  | none =>
    let (bitmap, cache) := s.cache.insert key ((Γ.render run.font (Γ.toPx run.size) glyph.id).getD .default)
    (bitmap, { s with cache, stats := { s.stats with glyphsRendered := countOne s.stats.glyphsRendered } })

/-- Paint one glyph of a run. -/
def paintGlyph (Γ : Backend) (run : GlyphRun) (clip : PixelClip) (s : Painting) (glyph : Glyph) : Painting :=
  let (bitmap, s) := glyphBitmap Γ run s glyph
  let penX := roundPx (run.origin.x.saturatingAdd glyph.x)
  let penY := roundPx (run.origin.y.saturatingAdd glyph.y)
  { s with pixmap := blit Γ s.pixmap bitmap penX penY run.color clip }

/-- Paint a run inside a clip. -/
def TextRasterizer.paintRun (Γ : Backend) (fonts : FontDb) (run : GlyphRun) (clip : Rect) (s : Painting) :
    Except GfxError Painting :=
  match fonts run.font with
  | none => .error (.fontNotBundled run.font)
  | some face =>
    if run.glyphs.isEmpty ∨ run.color.a = 0 then .ok s
    else
      match (pixelClip .saturating clip).run with
      | none => .ok s
      | some pixelClip =>
        if run.size ≤ .zero ∨ maxGlyphPx < run.size then .ok s
        else if !face.parses then
          .error (.font (face.family ++ " face " ++ toString face.index ++ " did not parse as a font"))
        else .ok (run.glyphs.foldl (paintGlyph Γ run pixelClip) s)

/-- The painting after a run, whether it succeeds or not: a run that fails changes nothing. -/
def TextRasterizer.afterRun (Γ : Backend) (s : Painting) (call : FontDb × GlyphRun × Rect) : Painting :=
  match paintRun Γ call.1 call.2.1 call.2.2 s with
  | .error _ => s
  | .ok s => s

/-! ## The pass over pixels -/

/-- Execute a call on a pixmap, the mask of a glyph rasterized for it. -/
def Draw.exec (Γ : Backend) (pixmap : Pixmap) : Draw → Pixmap
  | .fillRect left top right bottom color => Γ.fillRect pixmap left top right bottom color
  | .blit font size glyph penX penY color clip =>
    Gfx.blit Γ pixmap ((Γ.render font (Γ.toPx size) glyph).getD .default) penX penY color clip

/-- The pixmap that is opaque white everywhere. -/
def Pixmap.white (width height : Nat) : Pixmap where
  width := .ofNat width
  height := .ofNat height
  pixels := List.replicate ((UInt32.ofNat width).toNat * (UInt32.ofNat height).toNat) ⟨255, 255, 255, 255⟩
  size := List.length_replicate

/-- Paint one item of the list, with the clips around it. -/
def paintItem (Γ : Backend) (fonts : FontDb) (bounds : Rect) (clips : List Rect) (s : Painting) (item : DisplayItem) :
    Except GfxError (List Rect × Painting) :=
  let clip := clips.getLast?.getD bounds
  match item with
  | .rect rect color =>
    .ok (clips, { s with pixmap := (fill .saturating rect color clip).run.foldl (Draw.exec Γ) s.pixmap })
  | .border rect widths colors =>
    .ok (clips, { s with pixmap := (fillBorder .saturating rect widths colors clip).run.foldl (Draw.exec Γ) s.pixmap })
  | .text run =>
    match TextRasterizer.paintRun Γ fonts run clip s with
    | .error e => .error e
    | .ok s => .ok (clips, s)
  | .pushClip rect => .ok (clips ++ [(intersect .saturating clip rect).run], s)
  | .popClip => .ok (if 1 < clips.length then clips.dropLast else clips, s)

/-- Paint the items of a list, one after the other, until an error. -/
def paintItems (Γ : Backend) (fonts : FontDb) (bounds : Rect) :
    List Rect → Painting → List DisplayItem → Except GfxError Painting
  | _, s, [] => .ok s
  | clips, s, item :: items =>
    match paintItem Γ fonts bounds clips s item with
    | .error e => .error e
    | .ok (clips, s) => paintItems Γ fonts bounds clips s items

/-- Rasterize a display list onto a white canvas of that many pixels. -/
def rasterizeWithStats (Γ : Backend) (fonts : FontDb) (dl : DisplayList) (width height : Nat) :
    Except GfxError (Pixmap × RasterStats) :=
  if width = 0 ∨ height = 0 ∨ maxDimension < width ∨ maxDimension < height then .error (.pixmapTooLarge width height)
  else
    match validate dl (canvasBounds width height) with
    | .error e => .error (.invalid e)
    | .ok () =>
      let start : Painting := ⟨.default, .white width height, .default⟩
      match paintItems Γ fonts (canvasBounds width height) [canvasBounds width height] start dl.items with
      | .error e => .error e
      | .ok s => .ok (s.pixmap, s.stats)

end Gfx

end ChromeLight
