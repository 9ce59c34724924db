import ChromeLight.DisplayList

/-!
# The CPU rasterizer

How `cl-gfx` executes a display list: one pass over the items with a stack of clip rects. What it does to the pixmap is a list
of calls (`Draw`): filling a rect, and blitting the mask of a glyph. The additions and subtractions of app units are a
parameter (`Arith`): they saturate in the code, and where they are checked instead the whole pass fails at the first of them
that has no exact result.

The pixmap, the glyph masks with their cache, and the counters of it are left out: they do not change the geometry. A glyph
size is compared in `f32` with the largest one, which is exact: only sizes above it are above it after the division.
-/

namespace ChromeLight

/-- The difference if it is an `i32`. -/
def Au.checkedSub (a b : Au) : Option Au :=
  if h : -2147483648 ≤ a.units - b.units ∧ a.units - b.units ≤ 2147483647 then some ⟨a.units - b.units, h⟩ else none

/-- How app units are added and subtracted. -/
structure Arith (m : Type → Type) where
  add : Au → Au → m Au
  sub : Au → Au → m Au

namespace Arith

def saturating : Arith Id := ⟨Au.saturatingAdd, Au.saturatingSub⟩

def checked : Arith Option := ⟨Au.checkedAdd, Au.checkedSub⟩

variable {m : Type → Type} (ops : Arith m)

def right (r : Rect) : m Au := ops.add r.origin.x r.size.w

def bottom (r : Rect) : m Au := ops.add r.origin.y r.size.h

end Arith

namespace Gfx

/-- The largest canvas edge in pixels. -/
def maxDimension : Nat := 16384

/-- The largest font size glyphs are rasterized at. -/
def maxGlyphPx : Au := .fromPx 1024

inductive GfxError where
  | pixmapTooLarge (width height : Nat)
  | invalid (error : DisplayListError)
  | fontNotBundled (key : FontKey)
  | font (message : String)
deriving DecidableEq, Repr

/-- A face of the font database, and whether its bytes parse as a font. -/
structure FontFace where
  family : String
  index : Nat
  parses : Bool
deriving DecidableEq, Repr

/-- The faces of the font database. -/
abbrev FontDb := FontKey → Option FontFace

/-- A whole-pixel, half-open device rectangle. -/
structure PixelClip where
  x0 : Int
  y0 : Int
  x1 : Int
  y1 : Int
deriving DecidableEq, Repr

/-- A call that changes the pixmap. -/
inductive Draw where
  /-- Fill the rect with those edges, which go through `f32` on their way to `tiny-skia`: that is part of the call. -/
  | fillRect (left top right bottom : Au) (color : Rgba8)
  /-- Blit the mask of a glyph with its pen at a device pixel. -/
  | blit (font : FontKey) (size : Au) (glyph : UInt16) (penX penY : Int) (color : Rgba8) (clip : PixelClip)
deriving DecidableEq, Repr

variable {m : Type → Type} [Monad m] (ops : Arith m)

/-! ## Shapes -/

/-- The intersection of two rects, or an empty rect if they do not overlap. -/
def intersect (a b : Rect) : m Rect := do
  let left := max a.origin.x b.origin.x
  let top := max a.origin.y b.origin.y
  let right := min (← ops.right a) (← ops.right b)
  let bottom := min (← ops.bottom a) (← ops.bottom b)
  if right ≤ left ∨ bottom ≤ top then pure .zero
  else
    let w ← ops.sub right left
    let h ← ops.sub bottom top
    pure { origin := { x := left, y := top }, size := { w, h } }

/-- The rect as it is drawn, by its edges. What `f32` makes of an edge is left to the call that fills. -/
def toSkia (rect : Rect) (color : Rgba8) : m Draw := do
  let right ← ops.right rect
  let bottom ← ops.bottom rect
  pure (.fillRect rect.origin.x rect.origin.y right bottom color)

/-- Fill a rect with a color, as far as it is inside the clip. -/
def fill (rect : Rect) (color : Rgba8) (clip : Rect) : m (List Draw) :=
  if color.a = 0 then pure []
  else do
    let clipped ← intersect ops rect clip
    if clipped.isEmpty then pure []
    else
      let draw ← toSkia ops clipped color
      pure [draw]

/-- The strips of a border: the top and the bottom one, and if there is a band between them the left and the right one. -/
def borderStrips (rect : Rect) (widths : Sides Au) (colors : Sides Rgba8) : m (List (Rect × Rgba8)) := do
  let clamp (w extent : Au) : Au := min (max w .zero) (max extent .zero)
  let top := clamp widths.top rect.size.h
  let bottom := clamp widths.bottom rect.size.h
  let left := clamp widths.left rect.size.w
  let right := clamp widths.right rect.size.w
  let origin := rect.origin
  let w := rect.size.w
  let h := rect.size.h
  let bottomY ← ops.sub (← ops.bottom rect) bottom
  let strips := [(⟨origin, ⟨w, top⟩⟩, colors.top), (⟨⟨origin.x, bottomY⟩, ⟨w, bottom⟩⟩, colors.bottom)]
  let bandY ← ops.add origin.y top
  let bandH ← ops.sub (← ops.sub h top) bottom
  if bandH ≤ .zero then pure strips
  else
    let rightX ← ops.sub (← ops.right rect) right
    pure (strips ++
      [(⟨⟨origin.x, bandY⟩, ⟨left, bandH⟩⟩, colors.left), (⟨⟨rightX, bandY⟩, ⟨right, bandH⟩⟩, colors.right)])

/-- Fill rects one after the other. -/
def fillAll (clip : Rect) : List (Rect × Rgba8) → m (List Draw)
  | [] => pure []
  | (rect, color) :: strips => do
    let draws ← fill ops rect color clip
    let rest ← fillAll clip strips
    pure (draws ++ rest)

def fillBorder (rect : Rect) (widths : Sides Au) (colors : Sides Rgba8) (clip : Rect) : m (List Draw) := do
  let strips ← borderStrips ops rect widths colors
  fillAll ops clip strips

/-! ## Text -/

/-- Largest whole pixel at or below an app unit. -/
def floorPx (au : Au) : Int := au.units / 60

/-- Smallest whole pixel at or above an app unit. -/
def ceilPx (au : Au) : Int := if au.units % 60 = 0 then au.units / 60 else au.units / 60 + 1

/-- Nearest whole pixel, halves rounding up. -/
def roundPx (au : Au) : Int := if 60 ≤ au.units % 60 * 2 then au.units / 60 + 1 else au.units / 60

/-- The whole device pixels inside a clip, or none if nothing survives. -/
def pixelClip (clip : Rect) : m (Option PixelClip) := do
  let x0 := ceilPx clip.origin.x
  let y0 := ceilPx clip.origin.y
  let x1 := floorPx (← ops.right clip)
  let y1 := floorPx (← ops.bottom clip)
  pure (if x1 ≤ x0 ∨ y1 ≤ y0 then none else some { x0, y0, x1, y1 })

/-- Blit the glyphs of a run, each at its pen position. -/
def paintGlyphs (run : GlyphRun) (clip : PixelClip) : List Glyph → m (List Draw)
  | [] => pure []
  | glyph :: glyphs => do
    let penX ← ops.add run.origin.x glyph.x
    let penY ← ops.add run.origin.y glyph.y
    let rest ← paintGlyphs run clip glyphs
    pure (.blit run.font run.size glyph.id (roundPx penX) (roundPx penY) run.color clip :: rest)

def paintRun (fonts : FontDb) (run : GlyphRun) (clip : Rect) : m (Except GfxError (List Draw)) :=
  match fonts run.font with
  | none => pure (.error (.fontNotBundled run.font))
  | some face =>
    if run.glyphs.isEmpty ∨ run.color.a = 0 then pure (.ok [])
    else do
      match ← pixelClip ops clip with
      | none => pure (.ok [])
      | some pixelClip =>
        if run.size ≤ .zero ∨ maxGlyphPx < run.size then pure (.ok [])
        else if !face.parses then
          pure (.error (.font (face.family ++ " face " ++ toString face.index ++ " did not parse as a font")))
        else
          let draws ← paintGlyphs ops run pixelClip run.glyphs
          pure (.ok draws)

/-! ## The pass -/

/-- The clip rects, the innermost last, and the calls made so far. -/
structure RasterState where
  clips : List Rect
  draws : List Draw
deriving DecidableEq, Repr

/-- The innermost clip. -/
def RasterState.clip (s : RasterState) (bounds : Rect) : Rect := s.clips.getLast?.getD bounds

/-- One item of the list. -/
def step (fonts : FontDb) (bounds : Rect) (s : RasterState) : DisplayItem → m (Except GfxError RasterState)
  | .rect rect color => do
    let draws ← fill ops rect color (s.clip bounds)
    pure (.ok { s with draws := s.draws ++ draws })
  | .border rect widths colors => do
    let draws ← fillBorder ops rect widths colors (s.clip bounds)
    pure (.ok { s with draws := s.draws ++ draws })
  | .text run => do
    match ← paintRun ops fonts run (s.clip bounds) with
    | .error e => pure (.error e)
    | .ok draws => pure (.ok { s with draws := s.draws ++ draws })
  | .pushClip rect => do
    let clip ← intersect ops (s.clip bounds) rect
    pure (.ok { s with clips := s.clips ++ [clip] })
  | .popClip => pure (.ok (if 1 < s.clips.length then { s with clips := s.clips.dropLast } else s))

/-- The items of a list, one after the other, until an error. -/
def execute (fonts : FontDb) (bounds : Rect) : RasterState → List DisplayItem → m (Except GfxError RasterState)
  | s, [] => pure (.ok s)
  | s, item :: items => do
    match ← step ops fonts bounds s item with
    | .error e => pure (.error e)
    | .ok s => execute fonts bounds s items

/-- The bounds of a canvas, in device pixels. -/
def canvasBounds (width height : Nat) : Rect := ⟨.zero, ⟨.fromPx width, .fromPx height⟩⟩

/-- The state before the first item: the canvas is the bottom of the clip stack. -/
def start (bounds : Rect) : RasterState := { clips := [bounds], draws := [] }

/-- Rasterize a display list onto a canvas of that many pixels: the calls made on its pixmap. -/
def rasterize (fonts : FontDb) (dl : DisplayList) (width height : Nat) : m (Except GfxError (List Draw)) :=
  if width = 0 ∨ height = 0 ∨ maxDimension < width ∨ maxDimension < height then
    pure (.error (.pixmapTooLarge width height))
  else
    match validate dl (canvasBounds width height) with
    | .error e => pure (.error (.invalid e))
    | .ok () => do
      match ← execute ops fonts (canvasBounds width height) (start (canvasBounds width height)) dl.items with
      | .error e => pure (.error e)
      | .ok s => pure (.ok s.draws)

end Gfx

end ChromeLight
