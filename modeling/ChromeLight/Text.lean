import ChromeLight.Inline
import ChromeLight.Lib.PartitionPoint
import Mathlib.Algebra.GroupWithZero.Nat
import Mathlib.Data.List.DropRight

/-!
# The text shaper

`cl-layout`'s part of shaping a block's inline content: the items are concatenated into one string with a span for the text of
each, and each shaped line is flattened into clusters, relieved of its trailing collapsible spaces, and grouped into runs.

Shaping and breaking the string into lines is a parameter (`LineBreaker`); its lines, and the font each of their runs was found
to be in, are data. Of floating point only the operations are named (`F32Ops`).
-/

namespace ChromeLight

/-- The floating-point operations of the text shaper. -/
structure F32Ops where
  add : F32 → F32 → F32
  sub : F32 → F32 → F32
  /-- Less than or equal. -/
  le : F32 → F32 → Bool
  fromPx : F32 → Au

def F32.zero : F32 := ⟨0⟩

namespace Text

/-! ## The shaping string -/

/-- The bytes of one text item within the shaping string, from `start` up to `stop`. -/
structure Span where
  start : Nat
  stop : Nat
  /-- Index of the item. -/
  item : Nat
deriving DecidableEq, Repr

/-- The bytes of a text in UTF-8. -/
def byteLen (text : StrTendril) : Nat := (text.map Char.utf8Size).sum

def concatenateStep (s : StrTendril × List Span) (entry : InlineItem × Nat) : StrTendril × List Span :=
  match entry.1 with
  | .text run _ _ =>
    let start := byteLen s.1
    let text := s.1 ++ run
    if byteLen text > start then (text, s.2 ++ [{ start, stop := byteLen text, item := entry.2 }]) else (text, s.2)
  | .lineBreak => (s.1 ++ ['\n'], s.2)

/-- The string that is shaped, and where each text item is in it. -/
def concatenate (items : List InlineItem) : StrTendril × List Span := items.zipIdx.foldl concatenateStep ([], [])

/-- The text item at a byte of the shaping string, found by binary search. -/
def spanItem (spans : List Span) (offset : Nat) : Option Nat :=
  let candidate := PartitionPoint.partitionPoint (fun s : Span => decide (s.stop ≤ offset)) spans
  (spans[candidate]?.filter fun s => decide (s.start ≤ offset)).map (·.item)

/-- The character that begins at a byte of a text, if one does. -/
def charAt : Nat → StrTendril → Option Char
  | _, [] => none
  | 0, c :: _ => some c
  | offset + 1, c :: text => if c.utf8Size ≤ offset + 1 then charAt (offset + 1 - c.utf8Size) text else none

/-- Whether the character at a byte of the shaping string is a space of an item that collapses white space. -/
def isCollapsibleSpace (offset : Nat) (text : StrTendril) (spans : List Span) (items : List InlineItem) : Bool :=
  if charAt offset text ≠ some ' ' then false
  else
    match (spanItem spans offset).bind fun index => items[index]? with
    | some (.text _ style _) => style.whiteSpace = .normal
    | _ => false

/-! ## Clusters -/

/-- One glyph as the line breaker reported it. -/
structure RawGlyph where
  id : UInt16
  x : F32
  y : F32
  advance : F32
deriving DecidableEq, Repr

/-- One shaped cluster of a line. -/
structure ClusterRecord where
  /-- The byte of the shaping string its first character begins at. -/
  textStart : Nat
  /-- The item it came from; none for a forced break's newline. -/
  item : Option Nat
  advance : F32
  font : FontKey
  size : Au
  color : Rgba8
  glyphs : List RawGlyph
deriving DecidableEq, Repr

structure ShapedGlyph where
  id : UInt32
  x : F32
  y : F32
  advance : F32
deriving DecidableEq, Repr

structure ShapedCluster where
  textStart : Nat
  advance : F32
  /-- The color of the first style span the cluster is in. -/
  brush : Rgba8
  glyphs : List ShapedGlyph
deriving DecidableEq, Repr

/-- One run of a shaped line, its clusters in visual order. -/
structure ShapedRun where
  /-- What `key_for_font` finds for the run's font. -/
  font : Option FontKey
  fontSize : F32
  clusters : List ShapedCluster
deriving DecidableEq, Repr

structure ShapedLine where
  runs : List ShapedRun
  offset : F32
  inlineMinCoord : F32
  baseline : F32
  blockMinCoord : F32
deriving DecidableEq, Repr

/-- A glyph id in sixteen bits, zero where it does not fit. -/
def glyphId (id : UInt32) : UInt16 := if id.toNat ≤ 65535 then id.toUInt16 else 0

section

variable (O : F32Ops)

def clusterRecord (spans : List Span) (items : List InlineItem) (font : FontKey) (size : Au) (cluster : ShapedCluster) :
    ClusterRecord :=
  let item := spanItem spans cluster.textStart
  { textStart := cluster.textStart
    item
    advance := cluster.advance
    font, size
    color :=
      match items[item.getD usizeMax]? with
      | some (.text _ style _) => style.color
      | _ => cluster.brush
    glyphs := cluster.glyphs.map fun g => { id := glyphId g.id, x := g.x, y := g.y, advance := g.advance } }

/-- The clusters of a line in visual order, or the error that one of its fonts is not bundled. -/
def lineClusters (line : ShapedLine) (spans : List Span) (items : List InlineItem) (style : LayoutStyle) :
    Except LayoutError (List ClusterRecord) := do
  let clusters ← line.runs.mapM fun run =>
    match run.font with
    | none => .error (.fontNotBundled (", ".intercalate style.fontFamily))
    | some font => .ok (run.clusters.map (clusterRecord spans items font (O.fromPx run.fontSize)))
  return clusters.flatten

/-- Drop the clusters of a line's trailing collapsible spaces, stepping over those that draw and measure nothing. -/
def trimTrailingSpaces (clusters : List ClusterRecord) (text : StrTendril) (spans : List Span) (items : List InlineItem) :
    List ClusterRecord :=
  clusters.rdropWhile fun c =>
    (c.glyphs.isEmpty && O.le c.advance .zero) || isCollapsibleSpace c.textStart text spans items

/-! ## Runs -/

/-- What a run is uniform in: font, size, color and item. -/
abbrev RunKey := FontKey × Au × Rgba8 × Option Nat

def ClusterRecord.key (c : ClusterRecord) : RunKey := (c.font, c.size, c.color, c.item)

/-- The state of the loop over a line's clusters. -/
structure RunState where
  runs : List GlyphRun
  runItems : List Nat
  current : Option RunKey
  runStartX : F32
  penX : F32
deriving DecidableEq, Repr

/-- Begin a run at the pen where the cluster's key is not the current one. -/
def beginRun (s : RunState) (cluster : ClusterRecord) : RunState :=
  if s.current ≠ some cluster.key then
    { s with
      current := some cluster.key
      runStartX := s.penX
      runs := s.runs ++
        [{ font := cluster.font
           size := cluster.size
           origin := { x := O.fromPx s.penX, y := .zero }
           glyphs := []
           color := cluster.color }]
      runItems := s.runItems ++ [cluster.item.getD usizeMax] }
  else s

/-- The glyphs of a cluster from a position on, relative to the start of their run. -/
def placeGlyphs (runStartX : F32) : F32 → List RawGlyph → List Glyph
  | _, [] => []
  | glyphX, glyph :: glyphs =>
    { id := glyph.id
      x := O.fromPx (O.sub (O.add glyphX glyph.x) runStartX)
      y := O.fromPx glyph.y
      advance := O.fromPx glyph.advance } :: placeGlyphs runStartX (O.add glyphX glyph.advance) glyphs

def runStep (s : RunState) (cluster : ClusterRecord) : RunState :=
  let s := beginRun O s cluster
  { s with
    runs := s.runs.modifyLast fun run => { run with glyphs := run.glyphs ++ placeGlyphs O s.runStartX s.penX cluster.glyphs }
    penX := O.add s.penX cluster.advance }

/-- The runs of a line's clusters and the item each came from. Runs without a glyph are left out. -/
def buildRuns (clusters : List ClusterRecord) (lineX : F32) : List GlyphRun × List Nat :=
  let s := clusters.foldl (runStep O) { runs := [], runItems := [], current := none, runStartX := lineX, penX := lineX }
  ((s.runs.zip s.runItems).filter fun entry => !entry.1.glyphs.isEmpty).unzip

/-! ## Lines -/

/-- One line box; a last line that holds nothing has none. -/
def lineBox (lineHeight : Au) (line : ShapedLine) (clusters : List ClusterRecord) : LineBox :=
  let runs := buildRuns O clusters (O.add line.offset line.inlineMinCoord)
  { height := lineHeight
    baseline := O.fromPx (O.sub line.baseline line.blockMinCoord)
    runs := runs.1
    runItems := runs.2 }

/-- The line boxes of the lines from an index on. -/
def collectLines (lineCount : Nat) (text : StrTendril) (spans : List Span) (items : List InlineItem) (style : LayoutStyle) :
    Nat → List ShapedLine → Except LayoutError (List LineBox)
  | _, [] => return []
  | index, line :: lines => do
    let clusters ← lineClusters O line spans items style
    let clusters := trimTrailingSpaces O clusters text spans items
    let rest ← collectLines lineCount text spans items style (index + 1) lines
    if index + 1 = lineCount ∧ clusters.isEmpty then return rest
    return lineBox O (max style.lineHeight .zero) line clusters :: rest

/-- Shaping and line breaking of a string with spans of style, under a default style, against a width. -/
abbrev LineBreaker := StrTendril → List InlineItem → List Span → LayoutStyle → Au → List ShapedLine

/-- The shaper of `cl-layout` over a line breaker. -/
def layoutInline (breaker : LineBreaker) : Shaper := fun items style availableWidth =>
  let (text, spans) := concatenate items
  if text.isEmpty then .ok []
  else
    let lines := breaker text items spans style availableWidth
    collectLines O lines.length text spans items style 0 lines

end

end Text

end ChromeLight
