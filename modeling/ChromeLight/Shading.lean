import ChromeLight.Build
import ChromeLight.Glyphs
import ChromeLight.Lib.Box
import ChromeLight.Lib.Forest

/-!
# One pixel

What a display list and a fragment tree mean for one pixel, on their own: the colors that are painted over it, in paint order. There
is no buffer, no stack of clip rects and no cache here; nothing is culled but text, and no app unit saturates. A clip is a box of the
plane, in sixtieths of a pixel. `crates/paint` and `crates/gfx` are measured against this.
-/

namespace ChromeLight

/-- The points of a rect. -/
def Rect.region (r : Rect) : Box Int :=
  ⟨r.origin.x.units, r.origin.y.units, r.origin.x.units + r.size.w.units, r.origin.y.units + r.size.h.units⟩

namespace Gfx

/-- The points of a pixel. -/
def pixelRegion (x y : Int) : Box Int := ⟨60 * x, 60 * y, 60 * x + 60, 60 * y + 60⟩

/-- How the backend fills: the pixels that a region is taken to cover on a canvas of that size, and a color over a pixel. -/
structure Brush where
  covers : UInt32 → UInt32 → Box Int → Int → Int → Bool
  paint : Rgba8 → PremultipliedColorU8 → PremultipliedColorU8

/-- The coverage of a mask at a device pixel, unless there is none or it is zero. -/
def GlyphBitmap.maskAt (bitmap : GlyphBitmap) (penX penY x y : Int) : Option UInt8 :=
  let col := x - (penX + bitmap.left.toInt)
  let row := y - (penY - bitmap.top.toInt)
  if (0 ≤ col ∧ col < bitmap.width.toNat) ∧ 0 ≤ row ∧ row < bitmap.height.toNat then
    bitmap.alpha[row.toNat * bitmap.width.toNat + col.toNat]?.filter fun mask => mask ≠ 0
  else none

namespace Shading

/-- The canvas before anything is painted. -/
def white : PremultipliedColorU8 := ⟨255, 255, 255, 255⟩

variable (Γ : Backend) (brush : Brush) (width height : UInt32) (x y : Int)

/-- A region filled inside a clip. -/
def fill (clip : Box Int) (color : Rgba8) (region : Box Int) (c : PremultipliedColorU8) : PremultipliedColorU8 :=
  if color.a ≠ 0 ∧ (region.inter clip).Nonempty ∧ brush.covers width height (region.inter clip) x y then brush.paint color c else c

/-- The sides of a border, as far as they are in its box: the top and the bottom one reach from edge to edge, the other two between
them. -/
def borderSides (box : Box Int) (widths : Sides Au) (colors : Sides Rgba8) : List (Box Int × Rgba8) :=
  let top := box.top + widths.top.units
  let bottom := box.bottom - widths.bottom.units
  [(box.inter ⟨box.left, box.top, box.right, top⟩, colors.top), (box.inter ⟨box.left, bottom, box.right, box.bottom⟩, colors.bottom),
    (box.inter ⟨box.left, top, box.left + widths.left.units, bottom⟩, colors.left),
    (box.inter ⟨box.right - widths.right.units, top, box.right, bottom⟩, colors.right)]

def border (clip : Box Int) (box : Box Int) (widths : Sides Au) (colors : Sides Rgba8) (c : PremultipliedColorU8) :
    PremultipliedColorU8 :=
  (borderSides box widths colors).foldl (fun c side => fill brush width height x y clip side.2 side.1 c) c

/-- The nearest pixel, halves rounding up. -/
def nearest (units : Int) : Int := (units + 30) / 60

/-- One glyph of a run. -/
def glyph (run : GlyphRun) (c : PremultipliedColorU8) (g : Glyph) : PremultipliedColorU8 :=
  let bitmap := (Γ.render run.font (Γ.toPx run.size) g.id).getD .default
  match bitmap.maskAt (nearest (run.origin.x.units + g.x.units)) (nearest (run.origin.y.units + g.y.units)) x y with
  | none => c
  | some mask => (sourceOver Γ c run.color mask).getD c

/-- A run inside a clip: its glyphs, if the whole pixel is inside. -/
def text (clip : Box Int) (run : GlyphRun) (c : PremultipliedColorU8) : PremultipliedColorU8 :=
  if run.color.a ≠ 0 ∧ (.zero < run.size ∧ run.size ≤ maxGlyphPx) ∧ (pixelRegion x y).Within clip then
    run.glyphs.foldl (glyph Γ x y run) c
  else c

/-- An item inside a clip. -/
def item (clip : Box Int) (c : PremultipliedColorU8) : DisplayItem → PremultipliedColorU8
  | .rect rect color => fill brush width height x y clip color rect.region c
  | .border rect widths colors => border brush width height x y clip rect.region widths colors c
  | .text run => text Γ x y clip run c
  | .pushClip _ | .popClip => c

/-- The regions of the open clips after one more item. -/
def opened (opens : List (Box Int)) : DisplayItem → List (Box Int)
  | .pushClip rect => opens ++ [rect.region]
  | .popClip => opens.dropLast
  | .rect .. | .border .. | .text .. => opens

/-- The items of a list, each inside the canvas and the clips open there. -/
def items (canvas : Box Int) : List (Box Int) → PremultipliedColorU8 → List DisplayItem → PremultipliedColorU8
  | _, c, [] => c
  | opens, c, i :: rest => items canvas (opened opens i) (item Γ brush width height x y (canvas.interAll opens) c i) rest

/-! ## Fragment trees -/

variable (Φ : FloatOps) (tree : FragmentTree)

/-- What a fragment paints itself: a block its background and its border, a text the runs of it that start near the viewport. -/
def own (viewport : InflatedViewport) (fragment : Fragment) (style : LayoutStyle) (suppressBackground : Bool) (clip : Box Int)
    (c : PremultipliedColorU8) : PremultipliedColorU8 :=
  match fragment.kind with
  | .block =>
    let box := fragment.borderBox.region
    let c := if suppressBackground then c else fill brush width height x y clip style.background box c
    match Paint.solidBorderWidths style with
    | some widths => border brush width height x y clip box widths style.borderColor c
    | none => c
  | .anonymousBlock | .line => c
  | .text runs =>
    runs.foldl (fun c run => if viewport.containsPoint run.origin then text Γ x y clip run c else c) c

/-- Fragments in document order: each inside the padding boxes of those around it that clip, its own items below its children. -/
def forest (suppressed : Option FragmentId) (viewport : InflatedViewport) :
    Box Int → Forest FragmentId → PremultipliedColorU8 → PremultipliedColorU8
  | _, .nil, c => c
  | clip, .cons id kids rest, c =>
    forest suppressed viewport clip rest <|
      match tree.get id with
      | some fragment =>
        let style := Paint.resolveStyle Φ tree fragment.style
        let inside := if style.overflow = .hidden then clip.inter fragment.paddingBox.region else clip
        forest suppressed viewport inside kids
          (own Γ brush width height x y viewport fragment style (suppressed = some id) clip c)
      | none => c

/-- A fragment tree over its canvas. -/
def page (canvas : Paint.CanvasBackground) (F : Forest FragmentId) (c : PremultipliedColorU8) : PremultipliedColorU8 :=
  let bounds : Rect := ⟨.zero, tree.viewport⟩
  let c := match canvas.color with
    | some color => fill brush width height x y bounds.region color bounds.region c
    | none => c
  forest Γ brush width height x y Φ tree canvas.suppressedFragment (.new bounds) bounds.region F c

end Shading

end Gfx

end ChromeLight
