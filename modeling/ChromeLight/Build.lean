import ChromeLight.DisplayList
import ChromeLight.Lib.While

/-!
# The painter

`cl-paint`'s `build`: one walk over a fragment tree with an explicit stack, of fragments still to paint and of clips still to
close, that appends display items in paint order. A counter stops the walk on a malformed tree. Items that lie outside the
viewport widened by the offscreen margin are culled, clips are clamped to it; the background of `html` or `body` is
propagated to the canvas first. Clamping panics if the widened viewport is inside out, which a viewport of negative size can
be: then `walk` and `build` have no value.
-/

namespace ChromeLight

/-- The viewport widened by the offscreen margin on every side. -/
structure InflatedViewport where
  min : Point
  max : Point
deriving DecidableEq, Repr

namespace InflatedViewport

def new (viewportBounds : Rect) : InflatedViewport :=
  let margin := Au.fromPx offscreenMarginPx
  { min := { x := viewportBounds.origin.x.saturatingSub margin, y := viewportBounds.origin.y.saturatingSub margin }
    max := { x := viewportBounds.right.saturatingAdd margin, y := viewportBounds.bottom.saturatingAdd margin } }

def intersectsRect (v : InflatedViewport) (rect : Rect) : Bool :=
  axisOverlaps rect.origin.x rect.right v.min.x v.max.x && axisOverlaps rect.origin.y rect.bottom v.min.y v.max.y

def containsPoint (v : InflatedViewport) (point : Point) : Bool :=
  point.x ≥ v.min.x ∧ point.x ≤ v.max.x ∧ point.y ≥ v.min.y ∧ point.y ≤ v.max.y

/-- The part of a rect inside the region; a rect outside it collapses to the region's edge. -/
def clamp (v : InflatedViewport) (rect : Rect) : Option Rect := do
  let left ← rect.origin.x.clamp v.min.x v.max.x
  let top ← rect.origin.y.clamp v.min.y v.max.y
  let right := Max.max (← rect.right.clamp v.min.x v.max.x) left
  let bottom := Max.max (← rect.bottom.clamp v.min.y v.max.y) top
  return { origin := { x := left, y := top }, size := { w := right.saturatingSub left, h := bottom.saturatingSub top } }

end InflatedViewport

namespace Paint

/-- One entry of the walk's stack: a fragment to paint, or a clip to close. -/
inductive Frame where
  | fragment (id : FragmentId)
  | popClip
deriving DecidableEq, Repr

structure CanvasBackground where
  color : Option Rgba8
  /-- The fragment the colour was taken from, whose own background is not painted again. -/
  suppressedFragment : Option FragmentId
deriving DecidableEq, Repr

/-- The width of a side to paint: zero unless it is solid and positive. -/
def solidWidth (solid : Bool) (width : Au) : Au := if solid ∧ width > .zero then width else .zero

/-- The border widths to paint, if there is any. -/
def solidBorderWidths (style : LayoutStyle) : Option (Sides Au) :=
  let widths : Sides Au :=
    { top := solidWidth style.borderSolid.top style.borderWidth.top
      right := solidWidth style.borderSolid.right style.borderWidth.right
      bottom := solidWidth style.borderSolid.bottom style.borderWidth.bottom
      left := solidWidth style.borderSolid.left style.borderWidth.left }
  if widths.top > .zero ∨ widths.right > .zero ∨ widths.bottom > .zero ∨ widths.left > .zero then some widths else none

def resolveStyle (Γ : FloatOps) (tree : FragmentTree) (id : StyleId) : LayoutStyle :=
  (tree.style id).getD (.initial Γ)

/-- Append the fragment's own items: background and border of a block, the glyph runs of text, without the culled ones. -/
def paintFragment (fragment : Fragment) (style : LayoutStyle) (suppressBackground : Bool) (viewport : InflatedViewport)
    (items : List DisplayItem) : List DisplayItem :=
  match fragment.kind with
  | .block =>
    if !viewport.intersectsRect fragment.borderBox then items
    else
      let items :=
        if !suppressBackground ∧ style.background.a > 0 ∧ !fragment.borderBox.isEmpty then
          items ++ [.rect fragment.borderBox style.background]
        else items
      match solidBorderWidths style with
      | some widths => items ++ [.border fragment.borderBox widths style.borderColor]
      | none => items
  | .anonymousBlock | .line => items
  | .text runs =>
    runs.foldl (fun items run =>
      if run.glyphs.isEmpty then items
      else if viewport.containsPoint run.origin then items ++ [.text run]
      else items) items

/-- The closing items for the clips still open on the stack, innermost first. -/
def drainPendingPopClips (stack : List Frame) (items : List DisplayItem) : List DisplayItem :=
  stack.foldl (fun items frame => if frame = .popClip then items ++ [.popClip] else items) items

/-- The walk's state; the head of the stack is its top. -/
structure WalkState where
  stack : List Frame
  remaining : Nat
  items : List DisplayItem
deriving DecidableEq, Repr

section

variable (Γ : FloatOps)

/-- One iteration of the walk; it ends with the items, or with a panic. -/
def walkStep (tree : FragmentTree) (suppressedFragment : Option FragmentId) (viewport : InflatedViewport)
    (s : WalkState) : WalkState ⊕ Option (List DisplayItem) :=
  match s.stack with
  | [] => .inr (some s.items)
  | .popClip :: stack => .inl { s with stack, items := s.items ++ [.popClip] }
  | .fragment id :: stack =>
    -- the cycle guard: more fragments popped than the tree holds
    if s.remaining = 0 then .inr (some (drainPendingPopClips stack s.items))
    else
      let remaining := s.remaining - 1
      match tree.get id with
      | none => .inl { s with stack, remaining }
      | some fragment =>
        let style := resolveStyle Γ tree fragment.style
        let items := paintFragment fragment style (suppressedFragment = some id) viewport s.items
        if style.overflow = .hidden then
          match viewport.clamp fragment.paddingBox with
          | none => .inr none
          | some rect =>
            .inl { stack := fragment.children.map .fragment ++ .popClip :: stack
                   remaining
                   items := items ++ [.pushClip rect] }
        else .inl { stack := fragment.children.map .fragment ++ stack, remaining, items }

def walk (tree : FragmentTree) (suppressedFragment : Option FragmentId) (viewport : InflatedViewport)
    (items : List DisplayItem) : Part (List DisplayItem) := do
  let result ← While.loop (walkStep Γ tree suppressedFragment viewport)
    { stack := [.fragment tree.root], remaining := tree.len, items }
  Part.ofOption result

/-- The background of a fragment, transparent for an id that does not resolve. -/
def fragmentBackground (tree : FragmentTree) (id : FragmentId) : Rgba8 :=
  match tree.get id with
  | some fragment => (resolveStyle Γ tree fragment.style).background
  | none => .transparent

/-- Whether a fragment's node is an element with that name. -/
def isMatch (doc : Document) (localName : String) (fragment : Fragment) : Bool :=
  match fragment.node.bind doc.element with
  | some element => element.name.localName = localName
  | none => false

/-- One iteration of the search for an element's fragment, on its stack and the counter. -/
def findStep (tree : FragmentTree) (doc : Document) (localName : String) (s : List FragmentId × Nat) :
    List FragmentId × Nat ⊕ Option FragmentId :=
  match s with
  | ([], _) => .inr none
  | (id :: stack, remaining) =>
    if remaining = 0 then .inr none
    else match tree.get id with
      | none => .inl (stack, remaining - 1)
      | some fragment =>
        if isMatch doc localName fragment then .inr (some id)
        else .inl (fragment.children ++ stack, remaining - 1)

/-- The first fragment in document order whose node is an element with that name. -/
def findElementFragment (tree : FragmentTree) (doc : Document) (localName : String) : Part (Option FragmentId) :=
  While.loop (findStep tree doc localName) ([tree.root], tree.len)

/-- The canvas background an element's fragment supplies, unless it is transparent. -/
def propagated (tree : FragmentTree) (id : Option FragmentId) : Option CanvasBackground :=
  match id.map (fragmentBackground Γ tree) with
  | some bg => if bg.a > 0 then some { color := some bg, suppressedFragment := id } else none
  | none => none

/-- The background of `html` if there is one, else that of `body`. -/
def canvasBackground (tree : FragmentTree) (doc : Document) : Part CanvasBackground := do
  let htmlId ← findElementFragment tree doc "html"
  match propagated Γ tree htmlId with
  | some canvas => .some canvas
  | none => do
    let bodyId ← findElementFragment tree doc "body"
    .some ((propagated Γ tree bodyId).getD { color := none, suppressedFragment := none })

/-- The display list of a fragment tree, in paint order. -/
def build (tree : FragmentTree) (doc : Document) : Part DisplayList := do
  let bounds : Rect := { origin := .zero, size := tree.viewport }
  let viewport := InflatedViewport.new bounds
  let canvas ← canvasBackground Γ tree doc
  let items : List DisplayItem :=
    match canvas.color with
    | some color => if bounds.isEmpty then [] else [.rect bounds color]
    | none => []
  let items ← walk Γ tree canvas.suppressedFragment viewport items
  return { items, bounds }

end

end Paint

end ChromeLight
