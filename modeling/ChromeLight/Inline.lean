import ChromeLight.BoxTree
import ChromeLight.Fragment

/-!
# Inline content

`cl-layout`'s inline formatting context: a block's inline-level boxes are flattened into text runs and forced breaks, their
white space is processed with one flag threaded through them, the shaper breaks the result into lines, and each line becomes
a line fragment over one text fragment for every stretch of runs that came from the same text node.

The shaper itself is a parameter (`Shaper`): it is given the items, the container's style and the width to break against.
-/

namespace ChromeLight

/-! ## White space -/

namespace Whitespace

structure Processed where
  text : StrTendril
  /-- Whether a leading collapsible space of whatever comes next must be dropped. -/
  suppressNextSpace : Bool
deriving DecidableEq, Repr

structure NormalState where
  out : StrTendril
  suppress : Bool
  inSpaceRun : Bool
deriving DecidableEq, Repr

def normalStep (s : NormalState) (c : Char) : NormalState :=
  if isCollapsible c then { s with inSpaceRun := true }
  else
    let out := if s.inSpaceRun && !s.suppress then s.out ++ [' '] else s.out
    { out := out ++ [c], suppress := false, inSpaceRun := false }

/-- Text of `white-space: normal`: every run of collapsible characters becomes one space, or none where it is suppressed. -/
def processNormal (text : StrTendril) (suppressLeadingSpace : Bool) : Processed :=
  let s := text.foldl normalStep { out := [], suppress := suppressLeadingSpace, inSpaceRun := false }
  if s.inSpaceRun && !s.suppress then { text := s.out ++ [' '], suppressNextSpace := true }
  else { text := s.out, suppressNextSpace := s.suppress }

/-- One character of preformatted text, after the output so far and whether the last one was a carriage return. -/
def segmentBreakStep (s : StrTendril × Bool) (c : Char) : StrTendril × Bool :=
  if c = '\r' then (s.1 ++ ['\n'], true)
  else if c = '\n' ∧ s.2 then (s.1, false)
  else (s.1 ++ [c], false)

def normalizeSegmentBreaks (text : StrTendril) : StrTendril := (text.foldl segmentBreakStep ([], false)).1

def process (text : StrTendril) (mode : WhiteSpace) (suppressLeadingSpace : Bool) : Processed :=
  match mode with
  | .normal => processNormal text suppressLeadingSpace
  | .pre => { text := normalizeSegmentBreaks text, suppressNextSpace := false }

end Whitespace

/-! ## Shaping -/

/-- A piece of a block's flattened inline content. -/
inductive InlineItem where
  | text (text : StrTendril) (style : LayoutStyle) (node : NodeId)
  | lineBreak
deriving DecidableEq, Repr

/-- One line of shaped text. Origins of runs are relative to the line box's top left corner. -/
structure LineBox where
  height : Au
  /-- The offset of the baseline from the line box's top. -/
  baseline : Au
  runs : List GlyphRun
  /-- For each run, the index of the item it came from. -/
  runItems : List Nat
deriving DecidableEq, Repr

inductive LayoutError where
  | fontNotBundled (family : String)
deriving DecidableEq, Repr

/-- Shaping and line breaking of items, under a container's style, against a width. -/
abbrev Shaper := List InlineItem → LayoutStyle → Au → Except LayoutError (List LineBox)

/-! ## Fragments of lines -/

/-- The two arenas layout fills: fragments, and the styles they refer to. -/
structure Arenas where
  fragments : List Fragment
  styles : List LayoutStyle
deriving DecidableEq, Repr

/-- Append a style and a fragment that has it. -/
def Arenas.push (a : Arenas) (style : LayoutStyle) (fragment : StyleId → Fragment) : FragmentId × Arenas :=
  (⟨a.fragments.length⟩, { fragments := a.fragments ++ [fragment ⟨a.styles.length⟩], styles := a.styles ++ [style] })

namespace Inline

/-- One block's inline content and the box it is laid out into. -/
structure InlineArgs where
  children : List BoxId
  containerStyle : LayoutStyle
  contentOrigin : Point
  contentWidth : Au
deriving DecidableEq, Repr

/-- The boxes on a stack and below them flattened in document order: at most as many boxes as the counter says, with the
flag that a leading space is to be suppressed. -/
def collectPieces (tree : BoxTree) (document : Document) : Nat → List BoxId → Bool → List InlineItem
  | 0, _, _ => []
  | _ + 1, [], _ => []
  | remaining + 1, id :: stack, suppressSpace =>
    match tree.get id with
    | none => collectPieces tree document remaining stack suppressSpace
    | some b =>
      match b.kind with
      | .inlineText node =>
        let processed := Whitespace.process (BoxGen.textOf document node) b.style.whiteSpace suppressSpace
        .text processed.text b.style node :: collectPieces tree document remaining stack processed.suppressNextSpace
      | .lineBreak => .lineBreak :: collectPieces tree document remaining stack true
      | .inline | .anonymousInline => collectPieces tree document remaining (b.children ++ stack) suppressSpace
      | .block | .anonymousBlock => collectPieces tree document remaining stack suppressSpace

/-- Consecutive runs of a line that came from the same item. -/
structure RunGroup where
  item : Nat
  runs : List GlyphRun
deriving DecidableEq, Repr

structure GroupState where
  groups : List RunGroup
  start : Nat
deriving DecidableEq, Repr

/-- One index of the loop over a line's runs: a group ends where the next run has another item. -/
def groupStep (line : LineBox) (s : GroupState) (index : Nat) : GroupState :=
  let item := line.runItems[index]?.getD usizeMax
  if line.runItems[index + 1]? ≠ some item then
    { groups := s.groups ++ [{ item, runs := (line.runs.drop s.start).take (index + 1 - s.start) }], start := index + 1 }
  else s

def groupRuns (line : LineBox) : List RunGroup :=
  ((List.range line.runs.length).foldl (groupStep line) { groups := [], start := 0 }).groups

/-- From the first run's origin to the end of the last run's last glyph. -/
def runsWidth (runs : List GlyphRun) : Au :=
  match runs.head?, runs.getLast? with
  | some first, some last =>
    let right := last.glyphs.foldl (fun x glyph => x.saturatingAdd glyph.advance) last.origin.x
    right.saturatingSub first.origin.x
  | _, _ => .zero

/-- A run of a line box, moved to its absolute place. -/
def placeRun (origin : Point) (baselineY : Au) (run : GlyphRun) : GlyphRun :=
  { run with origin := { x := origin.x.saturatingAdd run.origin.x, y := baselineY.saturatingAdd run.origin.y } }

/-- The node and the style of the text an item holds; the container's style where it holds none. -/
def itemSource (items : List InlineItem) (containerStyle : LayoutStyle) (item : Nat) : Option NodeId × LayoutStyle :=
  match items[item]? with
  | some (.text _ style node) => (some node, style)
  | _ => (none, containerStyle)

/-- Append the text fragment of one group of a line's runs. -/
def pushText (args : InlineArgs) (items : List InlineItem) (line : LineBox) (lineTop : Au) (group : RunGroup)
    (a : Arenas) : FragmentId × Arenas :=
  let (node, style) := itemSource items args.containerStyle group.item
  let runs := group.runs.map (placeRun args.contentOrigin (lineTop.saturatingAdd line.baseline))
  let rect : Rect :=
    { origin := { x := (runs.head?.map fun run => run.origin.x).getD args.contentOrigin.x, y := lineTop }
      size := { w := runsWidth runs, h := line.height } }
  a.push style fun style =>
    { node, kind := .text runs, borderBox := rect, paddingBox := rect, contentBox := rect, style, children := [] }

/-- Append the text fragments of a line, and their ids. -/
def pushTexts (args : InlineArgs) (items : List InlineItem) (line : LineBox) (lineTop : Au) :
    List RunGroup → Arenas → List FragmentId × Arenas
  | [], a => ([], a)
  | group :: groups, a =>
    let (id, a) := pushText args items line lineTop group a
    let (ids, a) := pushTexts args items line lineTop groups a
    (id :: ids, a)

/-- Append the line fragment of a line box over its text fragments. -/
def pushLine (args : InlineArgs) (items : List InlineItem) (line : LineBox) (cursorY : Au) (a : Arenas) :
    FragmentId × Arenas :=
  let lineTop := args.contentOrigin.y.saturatingAdd cursorY
  let rect : Rect :=
    { origin := { x := args.contentOrigin.x, y := lineTop }, size := { w := args.contentWidth, h := line.height } }
  let (children, a) := pushTexts args items line lineTop (groupRuns line) a
  a.push args.containerStyle fun style =>
    { node := none, kind := .line, borderBox := rect, paddingBox := rect, contentBox := rect, style, children }

/-- Append the fragments of the line boxes from a vertical position on: the ids of the lines, and the position after them. -/
def buildFragments (args : InlineArgs) (items : List InlineItem) :
    List LineBox → Au → Arenas → (List FragmentId × Au) × Arenas
  | [], cursorY, a => (([], cursorY), a)
  | line :: lines, cursorY, a =>
    let (id, a) := pushLine args items line cursorY a
    let ((ids, height), a) := buildFragments args items lines (cursorY.saturatingAdd line.height) a
    ((id :: ids, height), a)

/-- Lay out a block's inline content: the ids of its line fragments and the height they take. -/
def layout (shape : Shaper) (tree : BoxTree) (document : Document) (args : InlineArgs) (a : Arenas) :
    Except LayoutError ((List FragmentId × Au) × Arenas) := do
  let items := collectPieces tree document tree.len args.children true
  let lines ← shape items args.containerStyle args.contentWidth
  return buildFragments args items lines .zero a

end Inline

end ChromeLight
