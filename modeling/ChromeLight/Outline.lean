import ChromeLight.Block
import ChromeLight.Lib.Postorder

/-!
# The outline of a layout

What layout makes of a box tree apart from its geometry, as a recursion over the forest of boxes: a fragment for each block,
around the fragments of its block-level children, or around the lines of its inline content. The geometry that is left out
are the rects of the fragments and the origins of the glyph runs.
-/

namespace ChromeLight

/-- The run without its place. -/
def GlyphRun.unplaced (run : GlyphRun) : GlyphRun := { run with origin := .zero }

def FragmentKind.unplaced : FragmentKind → FragmentKind
  | .text runs => .text (runs.map GlyphRun.unplaced)
  | kind => kind

/-- What a fragment is, apart from its geometry and its children. -/
structure FragmentData where
  node : Option NodeId
  kind : FragmentKind
  style : LayoutStyle
deriving DecidableEq, Repr

/-- The data and the children of each fragment of an arena, none where the fragment or its style does not resolve. -/
def Arenas.entry (a : Arenas) (id : FragmentId) : Option (FragmentData × List FragmentId) :=
  a.fragments[id.index]?.bind fun f =>
    a.styles[f.style.index]?.map fun style => (⟨f.node, f.kind.unplaced, style⟩, f.children)

def FragmentTree.arenas (tree : FragmentTree) : Arenas where
  fragments := tree.fragments
  styles := tree.styles

namespace Inline

/-- The text of one group of runs. -/
def textData (containerStyle : LayoutStyle) (items : List InlineItem) (group : RunGroup) : FragmentData where
  node := (itemSource items containerStyle group.item).1
  kind := .text (group.runs.map GlyphRun.unplaced)
  style := (itemSource items containerStyle group.item).2

def textsOutline (containerStyle : LayoutStyle) (items : List InlineItem) : List RunGroup → Forest FragmentData
  | [] => .nil
  | group :: groups => .cons (textData containerStyle items group) .nil (textsOutline containerStyle items groups)

/-- Each line around its texts. -/
def linesOutline (containerStyle : LayoutStyle) (items : List InlineItem) : List LineBox → Forest FragmentData
  | [] => .nil
  | line :: lines =>
    .cons ⟨none, .line, containerStyle⟩ (textsOutline containerStyle items (groupRuns line))
      (linesOutline containerStyle items lines)

end Inline

namespace Block

def blockKind (kind : BoxKind) : FragmentKind := if isAnonymous kind then .anonymousBlock else .block

/-- The fragment of a block. -/
def blockData (b : LayoutBox) : FragmentData where
  node := b.node
  kind := blockKind b.kind
  style := b.style

section

variable (Γ : FloatOps) (shape : Shaper) (tree : BoxTree) (document : Document)

/-- The lines the shaper makes of a box's inline content at a width. -/
def shapedLines (b : LayoutBox) (contentWidth : Au) : List LineBox :=
  if b.children.isEmpty then []
  else match shape (Inline.collectPieces tree document tree.len b.children true) b.style contentWidth with
    | .ok lines => lines
    | .error _ => []

/-- The lines of a box without block-level children. -/
def leafOutline (b : LayoutBox) (contentWidth : Au) : Forest FragmentData :=
  Inline.linesOutline b.style (Inline.collectPieces tree document tree.len b.children true)
    (shapedLines shape tree document b contentWidth)

/-- The fragments of a forest of boxes, in a containing block of that width and, if it is definite, that height. -/
def outline : Au → Option Au → Forest BoxId → Forest FragmentData
  | _, _, .nil => .nil
  | cbWidth, cbHeight, .cons id K R =>
    match tree.get id with
    | none => outline cbWidth cbHeight R
    | some b =>
      let model := resolveBoxModel Γ b.style cbWidth cbHeight
      .cons (blockData b)
        (if isBlockContainer tree id then outline model.contentWidth model.knownHeight K
          else leafOutline shape tree document b model.contentWidth)
        (outline cbWidth cbHeight R)

end

end Block

end ChromeLight
