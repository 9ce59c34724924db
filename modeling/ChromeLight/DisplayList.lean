import ChromeLight.Fragment

/-!
# Display lists and their validation

`cl-paint`'s output, and the check the receiving process makes before it touches any of the geometry in it: one pass over
the items with a counter for the open clips.
-/

namespace ChromeLight

inductive DisplayItem where
  | rect (rect : Rect) (color : Rgba8)
  | border (rect : Rect) (widths : Sides Au) (colors : Sides Rgba8)
  | text (run : GlyphRun)
  | pushClip (rect : Rect)
  | popClip
deriving DecidableEq, Repr

structure DisplayList where
  items : List DisplayItem
  bounds : Rect
deriving DecidableEq, Repr

def maxItems : Nat := 1000000

def maxGlyphsPerRun : Nat := 65536

def maxClipDepth : Nat := 256

/-- How far outside the bounds, in pixels, an item may lie. -/
def offscreenMarginPx : Int := 4096

inductive DisplayListError where
  | tooManyItems (count max : Nat)
  | tooManyGlyphs (index : Nat)
  | invalidRect (index : Nat)
  | outOfBounds (index : Nat)
  | popWithoutPush (index : Nat)
  | tooDeepClip (index max : Nat)
  | unbalancedClip (depthAtEnd : Int)
  | invalidBounds
deriving DecidableEq, Repr

/-- One axis of an intersection test: a span with an extent is compared half-open, one without inclusively. -/
def axisOverlaps (lo hi min max : Au) : Bool :=
  if lo = hi then lo ≥ min ∧ lo ≤ max else hi > min ∧ lo < max

/-- The bounds widened by the offscreen margin on every side. -/
structure InflatedBounds where
  minX : Au
  minY : Au
  maxX : Au
  maxY : Au
deriving DecidableEq, Repr

namespace InflatedBounds

def containsPoint (b : InflatedBounds) (point : Point) : Bool :=
  point.x ≥ b.minX ∧ point.x ≤ b.maxX ∧ point.y ≥ b.minY ∧ point.y ≤ b.maxY

def intersectsRect (b : InflatedBounds) (rect : Rect) : Bool :=
  axisOverlaps rect.origin.x rect.right b.minX b.maxX && axisOverlaps rect.origin.y rect.bottom b.minY b.maxY

end InflatedBounds

def boundsIsValid (bounds : Rect) : Bool :=
  bounds.size.w > .zero ∧ bounds.size.h > .zero ∧ (bounds.origin.x.checkedAdd bounds.size.w).isSome ∧
    (bounds.origin.y.checkedAdd bounds.size.h).isSome

def inflate (bounds : Rect) : InflatedBounds :=
  let margin := Au.fromPx offscreenMarginPx
  { minX := bounds.origin.x.saturatingSub margin
    minY := bounds.origin.y.saturatingSub margin
    maxX := bounds.right.saturatingAdd margin
    maxY := bounds.bottom.saturatingAdd margin }

/-- A size that is not negative, and an origin plus size that does not overflow. -/
def rectIsValid (rect : Rect) : Bool :=
  rect.size.w ≥ .zero ∧ rect.size.h ≥ .zero ∧ (rect.origin.x.checkedAdd rect.size.w).isSome ∧
    (rect.origin.y.checkedAdd rect.size.h).isSome

/-- Border widths that are not negative, and no larger than the dimension of the rect they are measured along. -/
def borderWidthsValid (rect : Rect) (widths : Sides Au) : Bool :=
  widths.top ≥ .zero ∧ widths.right ≥ .zero ∧ widths.bottom ≥ .zero ∧ widths.left ≥ .zero ∧
    widths.top ≤ rect.size.h ∧ widths.bottom ≤ rect.size.h ∧ widths.left ≤ rect.size.w ∧ widths.right ≤ rect.size.w

def checkRect (rect : Rect) (index : Nat) (inflated : InflatedBounds) : Except DisplayListError Unit :=
  if !rectIsValid rect then .error (.invalidRect index)
  else if !inflated.intersectsRect rect then .error (.outOfBounds index)
  else .ok ()

/-- Whether no glyph's position overflows. -/
def glyphsFit (run : GlyphRun) : Bool :=
  run.glyphs.all fun glyph => (run.origin.x.checkedAdd glyph.x).isSome && (run.origin.y.checkedAdd glyph.y).isSome

def checkTextRun (run : GlyphRun) (index : Nat) (inflated : InflatedBounds) : Except DisplayListError Unit :=
  if run.glyphs.length > maxGlyphsPerRun then .error (.tooManyGlyphs index)
  else if !inflated.containsPoint run.origin then .error (.outOfBounds index)
  else if !glyphsFit run then .error (.invalidRect index)
  else .ok ()

/-- The check of one item, at a number of open clips: the number of clips open after it. -/
def checkItem (inflated : InflatedBounds) (index depth : Nat) : DisplayItem → Except DisplayListError Nat
  | .rect rect _ => do
    checkRect rect index inflated
    pure depth
  | .border rect widths _ => do
    checkRect rect index inflated
    if !borderWidthsValid rect widths then .error (.invalidRect index) else pure depth
  | .text run => do
    checkTextRun run index inflated
    pure depth
  | .pushClip rect => do
    checkRect rect index inflated
    if depth + 1 > maxClipDepth then .error (.tooDeepClip index maxClipDepth) else pure (depth + 1)
  | .popClip => if depth = 0 then .error (.popWithoutPush index) else pure (depth - 1)

/-- The items from an index on, at a number of open clips. -/
def checkItems (inflated : InflatedBounds) : Nat → Nat → List DisplayItem → Except DisplayListError Nat
  | _, depth, [] => pure depth
  | index, depth, item :: items => do
    let depth ← checkItem inflated index depth item
    checkItems inflated (index + 1) depth items

/-- Whether every number in a display list is safe for a rasteriser to use. -/
def validate (dl : DisplayList) (bounds : Rect) : Except DisplayListError Unit :=
  if !boundsIsValid bounds then .error .invalidBounds
  else if dl.items.length > maxItems then .error (.tooManyItems dl.items.length maxItems)
  else do
    let depth ← checkItems (inflate bounds) 0 0 dl.items
    if depth ≠ 0 then .error (.unbalancedClip (min depth 2147483647)) else .ok ()

end ChromeLight
