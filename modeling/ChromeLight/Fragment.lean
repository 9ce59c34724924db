import ChromeLight.Dom
import ChromeLight.Geom

/-!
# The fragment tree

What layout hands to paint: one flat list of fragments, each with its rects, its style and the ids of its children, and for
text the shaped glyph runs. Ids and positions are in one absolute coordinate space.
-/

namespace ChromeLight

structure FontKey where
  key : UInt32
deriving DecidableEq, Repr

/-- One positioned glyph; its offsets are from the origin of its run. -/
structure Glyph where
  id : UInt16
  x : Au
  y : Au
  advance : Au
deriving DecidableEq, Repr

/-- A stretch of text in one font, size and colour. -/
structure GlyphRun where
  font : FontKey
  size : Au
  /-- The left end of the text's baseline, in the same absolute space as the rects of a fragment. -/
  origin : Point
  glyphs : List Glyph
  color : Rgba8
deriving DecidableEq, Repr

structure FragmentId where
  index : Nat
deriving DecidableEq, Repr

structure StyleId where
  index : Nat
deriving DecidableEq, Repr

inductive FragmentKind where
  | block
  | anonymousBlock
  | line
  | text (runs : List GlyphRun)
deriving DecidableEq, Repr

structure Fragment where
  node : Option NodeId
  kind : FragmentKind
  borderBox : Rect
  paddingBox : Rect
  contentBox : Rect
  style : StyleId
  children : List FragmentId
deriving DecidableEq, Repr

structure FragmentTree where
  fragments : List Fragment
  styles : List LayoutStyle
  root : FragmentId
  viewport : Size
deriving DecidableEq, Repr

namespace FragmentTree

def get (tree : FragmentTree) (id : FragmentId) : Option Fragment := tree.fragments[id.index]?

def style (tree : FragmentTree) (id : StyleId) : Option LayoutStyle := tree.styles[id.index]?

def len (tree : FragmentTree) : Nat := tree.fragments.length

/-- The child list of a fragment, none for an id that does not resolve. -/
def kids (tree : FragmentTree) (id : FragmentId) : List FragmentId :=
  match tree.get id with
  | some fragment => fragment.children
  | none => []

end FragmentTree

end ChromeLight
