import ChromeLight.Inline
import ChromeLight.Lib.While

/-!
# Block layout

`cl-layout`'s block formatting context: one walk over the box tree with an explicit stack of containers whose block-level
children are still being placed. A child's place follows from its container's and from what precedes it, margins collapsed;
its fragment is made when its own children are done, since its height may depend on them, and a relative offset is then
applied to the fragments made since the container was pushed.

A margin collapses through a chain of first (or last) children. The chains are walked ahead of the layout, with the
collapsed value of every box on the way kept in a memo.
-/

namespace ChromeLight

namespace Block

/-! ## Lengths -/

/-- A length against a width, `auto` as zero. -/
def resolveLenZero (Γ : FloatOps) (l : Length) (against : Au) : Au :=
  match l with
  | .auto => .zero
  | .px length => length
  | .percent p => Γ.mulByF32 against (Γ.div p .hundred)

/-- A length against a height, a percentage of an indefinite one as zero. -/
def resolveLenAgainstHeight (Γ : FloatOps) (l : Length) (against : Option Au) : Au :=
  match l with
  | .auto => .zero
  | .px length => length
  | .percent p =>
    match against with
    | some h => Γ.mulByF32 h (Γ.div p .hundred)
    | none => .zero

/-- The value of `[min, max]` nearest to `v`, where `min` wins over a smaller `max`. -/
def clampAu (v min : Au) (max : Option Au) : Au :=
  let effectiveMax := max.map fun m => Max.max m min
  let v := Max.max v min
  match effectiveMax with
  | some m => Min.min v m
  | none => v

/-- A box's border and padding along the block axis. -/
def verticalNonContent (padding border : Sides Au) : Au :=
  ((padding.top.saturatingAdd padding.bottom).saturatingAdd border.top).saturatingAdd border.bottom

/-- The content-box value of a specified dimension. -/
def usedContentSize (specified : Au) (boxSizing : BoxSizing) (nonContent : Au) : Au :=
  match boxSizing with
  | .contentBox => specified
  | .borderBox => Max.max (specified.saturatingSub nonContent) .zero

/-! ## The box model -/

/-- What a box's style and its containing block determine, apart from the box's children. -/
structure BoxModel where
  marginLeft : Au
  marginTop : Au
  marginBottom : Au
  padding : Sides Au
  border : Sides Au
  contentWidth : Au
  minHeight : Au
  maxHeight : Option Au
  /-- The box's own content height, if it is definite. -/
  knownHeight : Option Au
deriving DecidableEq, Repr

/-- A box's content width and its horizontal margins. -/
def resolveWidthAndMargins (Γ : FloatOps) (style : LayoutStyle) (cbWidth : Au) (padding border : Sides Au) : Au × Au × Au :=
  let nonContent := ((padding.left.saturatingAdd padding.right).saturatingAdd border.left).saturatingAdd border.right
  let marginLeft0 := resolveLenZero Γ style.margin.left cbWidth
  let marginRight0 := resolveLenZero Γ style.margin.right cbWidth
  let tentative :=
    if style.width = .auto then
      Max.max (((cbWidth.saturatingSub marginLeft0).saturatingSub nonContent).saturatingSub marginRight0) .zero
    else usedContentSize (resolveLenZero Γ style.width cbWidth) style.boxSizing nonContent
  let minWidth := usedContentSize (resolveLenZero Γ style.minWidth cbWidth) style.boxSizing nonContent
  let maxWidth := style.maxWidth.map fun l => usedContentSize (resolveLenZero Γ l cbWidth) style.boxSizing nonContent
  let contentWidth := clampAu tentative minWidth maxWidth
  if style.width = .auto ∧ contentWidth = tentative then (contentWidth, marginLeft0, marginRight0)
  else
    let nonMarginTotal := nonContent.saturatingAdd contentWidth
    if style.margin.left = .auto ∧ style.margin.right = .auto then
      let remaining := cbWidth.saturatingSub nonMarginTotal
      if remaining.units ≥ 0 then
        let half := remaining.units / 2
        (contentWidth, .saturate half, .saturate (remaining.units - half))
      else (contentWidth, .zero, .zero)
    else if style.margin.left = .auto then
      (contentWidth, (cbWidth.saturatingSub nonMarginTotal).saturatingSub marginRight0, marginRight0)
    else if style.margin.right = .auto then
      (contentWidth, marginLeft0, (cbWidth.saturatingSub nonMarginTotal).saturatingSub marginLeft0)
    else (contentWidth, marginLeft0, marginRight0)

/-- A box's content height, if it is definite; a percentage of an indefinite height is not. -/
def resolveHeight (Γ : FloatOps) (style : LayoutStyle) (cbHeight : Option Au) (padding border : Sides Au) : Option Au :=
  let specified :=
    match style.height with
    | .auto => none
    | .px length => some length
    | .percent p => cbHeight.map fun h => Γ.mulByF32 h (Γ.div p .hundred)
  specified.map fun h => usedContentSize h style.boxSizing (verticalNonContent padding border)

/-- A box's model in a containing block of that width and, if it is definite, that height. -/
def resolveBoxModel (Γ : FloatOps) (style : LayoutStyle) (cbWidth : Au) (cbHeight : Option Au) : BoxModel :=
  let padding : Sides Au :=
    { top := resolveLenZero Γ style.padding.top cbWidth
      right := resolveLenZero Γ style.padding.right cbWidth
      bottom := resolveLenZero Γ style.padding.bottom cbWidth
      left := resolveLenZero Γ style.padding.left cbWidth }
  let border := style.borderWidth
  let (contentWidth, marginLeft, _) := resolveWidthAndMargins Γ style cbWidth padding border
  let vNonContent := verticalNonContent padding border
  let minHeight :=
    usedContentSize (resolveLenZero Γ style.minHeight (cbHeight.getD .zero)) style.boxSizing vNonContent
  let maxHeight := style.maxHeight.map fun l =>
    usedContentSize (resolveLenZero Γ l (cbHeight.getD .zero)) style.boxSizing vNonContent
  let knownHeight := (resolveHeight Γ style cbHeight padding border).map fun h => clampAu h minHeight maxHeight
  { marginLeft
    marginTop := resolveLenZero Γ style.margin.top cbWidth
    marginBottom := resolveLenZero Γ style.margin.bottom cbWidth
    padding, border, contentWidth, minHeight, maxHeight, knownHeight }

/-- The absolute origin of a box's content box. -/
def contentOriginOf (borderBoxOrigin : Point) (model : BoxModel) : Point where
  x := (borderBoxOrigin.x.saturatingAdd model.padding.left).saturatingAdd model.border.left
  y := (borderBoxOrigin.y.saturatingAdd model.padding.top).saturatingAdd model.border.top

/-- The offset of a relatively positioned box: `left` and `top` win over `right` and `bottom`. -/
def resolveOffset (Γ : FloatOps) (style : LayoutStyle) (cbWidth : Au) (cbHeight : Option Au) : Au × Au :=
  let dx :=
    match style.offset.left with
    | .auto =>
      match style.offset.right with
      | .auto => .zero
      | right => Au.zero.saturatingSub (resolveLenZero Γ right cbWidth)
    | left => resolveLenZero Γ left cbWidth
  let dy :=
    match style.offset.top with
    | .auto =>
      match style.offset.bottom with
      | .auto => .zero
      | bottom => Au.zero.saturatingSub (resolveLenAgainstHeight Γ bottom cbHeight)
    | top => resolveLenAgainstHeight Γ top cbHeight
  (dx, dy)

/-! ## Margins -/

/-- Whether a box with this style establishes a new block formatting context. -/
def establishesBfc (style : LayoutStyle) : Bool := style.overflow ≠ .visible

/-- Collapse a whole set of adjoining margins: the greatest positive one plus the least negative one. -/
def collapseMarginSet (margins : List Au) : Au :=
  let maxPositive := margins.foldl (fun acc m => Max.max acc (Max.max m .zero)) .zero
  let minNegative := margins.foldl (fun acc m => Min.min acc (Min.min m .zero)) .zero
  maxPositive.saturatingAdd minNegative

/-- Two margins, collapsed. -/
def collapseMargins (a b : Au) : Au := collapseMarginSet [a, b]

/-- The box of a child id, if it is block-level. -/
def blockLevelChild (tree : BoxTree) (child : Option BoxId) : Option BoxId :=
  match child with
  | none => none
  | some id =>
    match tree.get id with
    | none => none
    | some b => if BoxGen.isBlockLevel b.kind then some id else none

/-- The first child, if it is block-level. -/
def firstBlockChild (tree : BoxTree) (id : BoxId) : Option BoxId :=
  blockLevelChild tree ((tree.get id).bind fun b => b.children.head?)

/-- The last child, if it is block-level. -/
def lastBlockChild (tree : BoxTree) (id : BoxId) : Option BoxId :=
  blockLevelChild tree ((tree.get id).bind fun b => b.children.getLast?)

/-- Whether a box has block-level children, by its first child. -/
def isBlockContainer (tree : BoxTree) (id : BoxId) : Bool := (firstBlockChild tree id).isSome

/-- One of the two block-axis edges of a box: the child its margin may adjoin, its margin there, and whether nothing
separates the two. -/
structure Edge where
  blockChild : BoxTree → BoxId → Option BoxId
  margin : BoxModel → Au
  collapsesThrough : LayoutStyle → BoxModel → Bool

/-- The top edge: the margin, the child and what keeps them apart. -/
def topEdge : Edge where
  blockChild := firstBlockChild
  margin model := model.marginTop
  collapsesThrough style model := !establishesBfc style ∧ model.padding.top = .zero ∧ model.border.top = .zero

/-- The bottom edge: the margin, the child and what keeps them apart. -/
def bottomEdge : Edge where
  blockChild := lastBlockChild
  margin model := model.marginBottom
  collapsesThrough style model :=
    !establishesBfc style ∧ model.knownHeight = none ∧ model.minHeight = .zero ∧ model.padding.bottom = .zero ∧
      model.border.bottom = .zero

/-- The collapsed margins known so far, by box id, of each of the two edges. -/
structure MarginMemo where
  top : List (Option Au)
  bottom : List (Option Au)
deriving DecidableEq, Repr

/-- Nothing is known yet. -/
def MarginMemo.new (len : Nat) : MarginMemo where
  top := List.replicate len none
  bottom := List.replicate len none

/-- What is known of a box. -/
def lookup (memo : List (Option Au)) (id : BoxId) : Option Au := memo[id.index]?.join

/-- The chain below a box: each next box with its margin, at most as many as the counter says. It ends at a box that
separates its margin from its child's, and at one whose child is in the memo. -/
def chainBelow (Γ : FloatOps) (tree : BoxTree) (edge : Edge) (memo : List (Option Au)) :
    Nat → BoxId → LayoutStyle → BoxModel → List (BoxId × Au)
  | 0, _, _, _ => []
  | remaining + 1, current, style, model =>
    if !edge.collapsesThrough style model then []
    else match edge.blockChild tree current with
      | none => []
      | some childId =>
        if (lookup memo childId).isSome then []
        else match tree.get childId with
          | none => []
          | some child =>
            let childModel := resolveBoxModel Γ child.style model.contentWidth none
            (childId, edge.margin childModel) :: chainBelow Γ tree edge memo remaining childId child.style childModel

/-- The accumulators and the memo, while a chain is collapsed from its end. -/
structure SuffixState where
  maxPositive : Au
  minNegative : Au
  memo : List (Option Au)
deriving DecidableEq, Repr

/-- One box of a chain, from its end on. -/
def suffixStep (link : BoxId × Au) (s : SuffixState) : SuffixState :=
  let maxPositive := Max.max s.maxPositive (Max.max link.2 .zero)
  let minNegative := Min.min s.minNegative (Min.min link.2 .zero)
  { maxPositive, minNegative, memo := s.memo.set link.1.index (some (maxPositive.saturatingAdd minNegative)) }

/-- Enter for every box of a chain the collapsed value of the chain from that box on. -/
def memoizeSuffixCollapse (chain : List (BoxId × Au)) (memo : List (Option Au)) : List (Option Au) :=
  (chain.foldr suffixStep { maxPositive := .zero, minNegative := .zero, memo }).memo

/-- A box's margin at an edge collapsed with those of its chain, and the memo with the whole chain in it. -/
def effectiveMargin (Γ : FloatOps) (tree : BoxTree) (edge : Edge) (id : BoxId) (style : LayoutStyle) (model : BoxModel)
    (memo : List (Option Au)) : Au × List (Option Au) :=
  match lookup memo id with
  | some cached => (cached, memo)
  | none =>
    let chain := (id, edge.margin model) :: chainBelow Γ tree edge memo tree.len id style model
    let memo := memoizeSuffixCollapse chain memo
    ((lookup memo id).getD (edge.margin model), memo)

/-- The top margin a box collapses to. -/
def effectiveMarginTop (Γ : FloatOps) (tree : BoxTree) (id : BoxId) (style : LayoutStyle) (model : BoxModel)
    (memo : List (Option Au)) : Au × List (Option Au) :=
  effectiveMargin Γ tree topEdge id style model memo

/-- The bottom margin a box collapses to. -/
def effectiveMarginBottom (Γ : FloatOps) (tree : BoxTree) (id : BoxId) (style : LayoutStyle) (model : BoxModel)
    (memo : List (Option Au)) : Au × List (Option Au) :=
  effectiveMargin Γ tree bottomEdge id style model memo

/-! ## Fragments of blocks -/

/-- A rect without its sides, no side going below zero. -/
def inset (rect : Rect) (sides : Sides Au) : Rect where
  origin := { x := rect.origin.x.saturatingAdd sides.left, y := rect.origin.y.saturatingAdd sides.top }
  size :=
    { w := Max.max ((rect.size.w.saturatingSub sides.left).saturatingSub sides.right) .zero
      h := Max.max ((rect.size.h.saturatingSub sides.top).saturatingSub sides.bottom) .zero }

/-- The rect, moved. -/
def shiftRect (dx dy : Au) (r : Rect) : Rect :=
  { r with origin := { x := r.origin.x.saturatingAdd dx, y := r.origin.y.saturatingAdd dy } }

/-- Move every rect of a fragment. -/
def shiftFragment (dx dy : Au) (f : Fragment) : Fragment :=
  { f with
    borderBox := shiftRect dx dy f.borderBox
    paddingBox := shiftRect dx dy f.paddingBox
    contentBox := shiftRect dx dy f.contentBox }

/-- A block box that is ready to become a fragment: its place, its model, its content height and its children. -/
structure Finished where
  /-- How many fragments there were before the first one of the box's subtree. -/
  fragStart : Nat
  node : Option NodeId
  style : LayoutStyle
  isAnonymousBlock : Bool
  origin : Point
  padding : Sides Au
  border : Sides Au
  contentWidth : Au
  contentHeight : Au
  cbWidth : Au
  cbHeight : Option Au
  children : List FragmentId
deriving DecidableEq, Repr

/-- The size of the border box. -/
def Finished.borderBoxSize (b : Finished) : Size where
  w := (((b.contentWidth.saturatingAdd b.padding.left).saturatingAdd b.padding.right).saturatingAdd
    b.border.left).saturatingAdd b.border.right
  h := (((b.contentHeight.saturatingAdd b.padding.top).saturatingAdd b.padding.bottom).saturatingAdd
    b.border.top).saturatingAdd b.border.bottom

/-- The fragment of a box that is done. -/
def Finished.fragment (b : Finished) (style : StyleId) : Fragment :=
  let borderBox : Rect := { origin := b.origin, size := b.borderBoxSize }
  let paddingBox := inset borderBox b.border
  { node := b.node
    kind := if b.isAnonymousBlock then .anonymousBlock else .block
    borderBox, paddingBox
    contentBox := inset paddingBox b.padding
    style
    children := b.children }

/-- Move the fragments from a position on. -/
def shiftFrom (start : Nat) (dx dy : Au) (fragments : List Fragment) : List Fragment :=
  fragments.take start ++ (fragments.drop start).map (shiftFragment dx dy)

/-- Append the fragment of a block, and move its whole subtree by its relative offset. -/
def Finished.push (Γ : FloatOps) (b : Finished) (a : Arenas) : FragmentId × Arenas :=
  let (id, a) := a.push b.style b.fragment
  if b.style.position = .relative then
    let (dx, dy) := resolveOffset Γ b.style b.cbWidth b.cbHeight
    (id, { a with fragments := shiftFrom b.fragStart dx dy a.fragments })
  else (id, a)

/-! ## The walk -/

/-- A container whose block-level children are still being placed. -/
structure Frame where
  /-- How many fragments there were when the frame was pushed. -/
  fragStart : Nat
  node : Option NodeId
  style : LayoutStyle
  isAnonymousBlock : Bool
  borderBoxOrigin : Point
  contentOrigin : Point
  padding : Sides Au
  border : Sides Au
  contentWidth : Au
  minHeight : Au
  maxHeight : Option Au
  knownHeight : Option Au
  cbWidth : Au
  cbHeight : Option Au
  /-- Whether the first child's top margin collapses with the box's own. -/
  firstChildCollapseEligible : Bool
  /-- Whether the last child's bottom margin collapses with the box's own. -/
  bottomCollapseEligible : Bool
  blockChildren : List BoxId
  nextChild : Nat
  /-- The bottom of the last child placed, below the top of the content box. -/
  runningContentBottom : Au
  /-- The effective bottom margin of the last child placed. -/
  prevMarginBottom : Option Au
  childrenFragIds : List FragmentId
  effectiveMarginBottomForParent : Au
deriving DecidableEq, Repr

/-- The state of the walk; the head of the stack is its top. -/
structure LayoutState where
  stack : List Frame
  arenas : Arenas
  memo : MarginMemo
  /-- The first error the shaper reported. -/
  error : Option LayoutError
deriving DecidableEq, Repr

/-- A child's model, its place, and its effective bottom margin. -/
structure ChildPlacement where
  model : BoxModel
  origin : Point
  effectiveMarginBottom : Au
  cbWidth : Au
  cbHeight : Option Au
deriving DecidableEq, Repr

section

variable (Γ : FloatOps)

/-- The gap above a child with that effective top margin. -/
def gapBefore (parent : Frame) (effTop : Au) : Au :=
  match parent.prevMarginBottom with
  | some prev => collapseMargins prev effTop
  | none => if parent.firstChildCollapseEligible then .zero else effTop

/-- Place a child of the container of a frame. -/
def placeChild (tree : BoxTree) (childId : BoxId) (style : LayoutStyle) (parent : Frame) (memo : MarginMemo) :
    ChildPlacement × MarginMemo :=
  let model := resolveBoxModel Γ style parent.contentWidth parent.knownHeight
  let (effTop, top) := effectiveMarginTop Γ tree childId style model memo.top
  let (effBottom, bottom) := effectiveMarginBottom Γ tree childId style model memo.bottom
  let origin : Point :=
    { x := parent.contentOrigin.x.saturatingAdd model.marginLeft
      y := (parent.contentOrigin.y.saturatingAdd parent.runningContentBottom).saturatingAdd (gapBefore parent effTop) }
  ({ model, origin, effectiveMarginBottom := effBottom, cbWidth := parent.contentWidth, cbHeight := parent.knownHeight },
    { top, bottom })

/-- The box is of no element. -/
def isAnonymous (kind : BoxKind) : Bool := kind = .anonymousBlock

/-- The frame of a container that has been placed. -/
def containerFrame (fragStart : Nat) (child : LayoutBox) (placement : ChildPlacement) : Frame where
  fragStart := fragStart
  node := child.node
  style := child.style
  isAnonymousBlock := isAnonymous child.kind
  borderBoxOrigin := placement.origin
  contentOrigin := contentOriginOf placement.origin placement.model
  padding := placement.model.padding
  border := placement.model.border
  contentWidth := placement.model.contentWidth
  minHeight := placement.model.minHeight
  maxHeight := placement.model.maxHeight
  knownHeight := placement.model.knownHeight
  cbWidth := placement.cbWidth
  cbHeight := placement.cbHeight
  firstChildCollapseEligible :=
    !establishesBfc child.style ∧ placement.model.padding.top = .zero ∧ placement.model.border.top = .zero
  bottomCollapseEligible :=
    !establishesBfc child.style ∧ placement.model.knownHeight = none ∧ placement.model.minHeight = .zero ∧
      placement.model.padding.bottom = .zero ∧ placement.model.border.bottom = .zero
  blockChildren := child.children
  nextChild := 0
  runningContentBottom := .zero
  prevMarginBottom := none
  childrenFragIds := []
  effectiveMarginBottomForParent := placement.effectiveMarginBottom

/-- The frame of the root, through whose edges no margin collapses. -/
def rootFrame (root : LayoutBox) (origin : Point) (model : BoxModel) (viewport : Size) : Frame :=
  { containerFrame 0 root { model, origin, effectiveMarginBottom := .zero, cbWidth := viewport.w, cbHeight := some viewport.h } with
    firstChildCollapseEligible := false
    bottomCollapseEligible := false }

/-- Record a finished child in its parent's frame. -/
def Frame.childDone (parent : Frame) (origin : Point) (usedHeight effectiveMarginBottom : Au) (id : FragmentId) : Frame :=
  { parent with
    runningContentBottom := (origin.y.saturatingSub parent.contentOrigin.y).saturatingAdd usedHeight
    prevMarginBottom := some effectiveMarginBottom
    childrenFragIds := parent.childrenFragIds ++ [id] }

/-- The content height of a container whose children are done. -/
def Frame.contentHeight (frame : Frame) : Au :=
  match frame.knownHeight with
  | some h => h
  | none =>
    let trailing := if frame.bottomCollapseEligible then .zero else frame.prevMarginBottom.getD .zero
    clampAu (frame.runningContentBottom.saturatingAdd trailing) frame.minHeight frame.maxHeight

/-- The frame as a box that is done. -/
def Frame.finished (frame : Frame) : Finished where
  fragStart := frame.fragStart
  node := frame.node
  style := frame.style
  isAnonymousBlock := frame.isAnonymousBlock
  origin := frame.borderBoxOrigin
  padding := frame.padding
  border := frame.border
  contentWidth := frame.contentWidth
  contentHeight := frame.contentHeight
  cbWidth := frame.cbWidth
  cbHeight := frame.cbHeight
  children := frame.childrenFragIds

/-- The degenerate tree of one empty anonymous block, for the fallbacks that are not reached. -/
def emptyTree (a : Arenas) (viewport : Size) : FragmentTree :=
  let (root, a) := a.push (.initial Γ) fun style =>
    { node := none, kind := .anonymousBlock, borderBox := .zero, paddingBox := .zero, contentBox := .zero, style
      children := [] }
  { fragments := a.fragments, styles := a.styles, root, viewport }

variable (shape : Shaper) (tree : BoxTree) (document : Document) (viewport : Size)

/-- The inline content of a leaf: the ids of its lines, their height, and the first error of the shaper so far. -/
def leafContent (child : LayoutBox) (placement : ChildPlacement) (a : Arenas) (error : Option LayoutError) :
    ((List FragmentId × Au) × Arenas) × Option LayoutError :=
  if child.children.isEmpty then ((([], .zero), a), error)
  else
    let args : Inline.InlineArgs :=
      { children := child.children
        containerStyle := child.style
        contentOrigin := contentOriginOf placement.origin placement.model
        contentWidth := placement.model.contentWidth }
    match Inline.layout shape tree document args a with
    | .ok result => (result, error)
    -- collected, and only the first one: `layout` discards the tree
    | .error e => ((([], .zero), a), error <|> some e)

/-- A leaf with its lines. -/
def finishedLeaf (fragStart : Nat) (child : LayoutBox) (placement : ChildPlacement) (lines : List FragmentId)
    (inlineHeight : Au) : Finished where
  fragStart := fragStart
  node := child.node
  style := child.style
  isAnonymousBlock := isAnonymous child.kind
  origin := placement.origin
  padding := placement.model.padding
  border := placement.model.border
  contentWidth := placement.model.contentWidth
  contentHeight :=
    placement.model.knownHeight.getD (clampAu inlineHeight placement.model.minHeight placement.model.maxHeight)
  cbWidth := placement.cbWidth
  cbHeight := placement.cbHeight
  children := lines

/-- Lay out a box without block-level children at its place: its fragment's id and its border-box height. -/
def layoutLeaf (child : LayoutBox) (placement : ChildPlacement) (a : Arenas) (error : Option LayoutError) :
    (FragmentId × Au) × Arenas × Option LayoutError :=
  let (((lines, inlineHeight), inlineArenas), error) := leafContent shape tree document child placement a error
  let finished := finishedLeaf a.fragments.length child placement lines inlineHeight
  let (id, pushed) := finished.push Γ inlineArenas
  ((id, finished.borderBoxSize.h), pushed, error)

/-- Place the next child of the top frame: push a frame for a container, lay out a leaf at once. -/
def advanceChild (top : Frame) (stack : List Frame) (s : LayoutState) : LayoutState :=
  match top.blockChildren[top.nextChild]? with
  | none => s
  | some childId =>
    let top := { top with nextChild := top.nextChild + 1 }
    match tree.get childId with
    | none => { s with stack := top :: stack }
    | some child =>
      let (placement, memo) := placeChild Γ tree childId child.style top s.memo
      if isBlockContainer tree childId then
        { s with stack := containerFrame s.arenas.fragments.length child placement :: top :: stack, memo }
      else
        let ((id, usedHeight), arenas, error) := layoutLeaf Γ shape tree document child placement s.arenas s.error
        { stack := top.childDone placement.origin usedHeight placement.effectiveMarginBottom id :: stack
          arenas, memo, error }

/-- Pop the top frame and hand its fragment to the frame below, or return the finished tree. -/
def finalizeTop (popped : Frame) (stack : List Frame) (s : LayoutState) :
    LayoutState ⊕ (FragmentTree × Option LayoutError) :=
  let (id, arenas) := popped.finished.push Γ s.arenas
  match stack with
  | [] => .inr ({ fragments := arenas.fragments, styles := arenas.styles, root := id, viewport }, s.error)
  | parent :: stack =>
    .inl { s with
      stack := parent.childDone popped.borderBoxOrigin popped.finished.borderBoxSize.h
        popped.effectiveMarginBottomForParent id :: stack
      arenas }

/-- One iteration of the walk. -/
def runStep (s : LayoutState) : LayoutState ⊕ (FragmentTree × Option LayoutError) :=
  match s.stack with
  | [] => .inr (emptyTree Γ s.arenas viewport, s.error)
  | top :: stack =>
    if top.nextChild < top.blockChildren.length then .inl (advanceChild Γ shape tree document top stack s)
    else finalizeTop Γ viewport top stack s

/-- The state the walk starts in, for a root with that model. -/
def startState (root : LayoutBox) (model : BoxModel) : LayoutState where
  stack := [rootFrame root { x := model.marginLeft, y := model.marginTop } model viewport]
  arenas := { fragments := [], styles := [] }
  memo := .new tree.len
  error := none

/-- Lay out a box tree: the fragment tree, and the first error of the shaper. -/
def run : Part (FragmentTree × Option LayoutError) :=
  match tree.get tree.root with
  | none => .some (emptyTree Γ { fragments := [], styles := [] } viewport, none)
  | some root =>
    let model := resolveBoxModel Γ root.style viewport.w (some viewport.h)
    if isBlockContainer tree tree.root then
      While.loop (runStep Γ shape tree document viewport) (startState tree viewport root model)
    else
      let placement : ChildPlacement :=
        { model, origin := { x := model.marginLeft, y := model.marginTop }, effectiveMarginBottom := .zero
          cbWidth := viewport.w, cbHeight := some viewport.h }
      let ((id, _), arenas, error) :=
        layoutLeaf Γ shape tree document root placement { fragments := [], styles := [] } none
      .some ({ fragments := arenas.fragments, styles := arenas.styles, root := id, viewport }, error)

end

/-- Lay out a styled document: an error, if the shaper reported one. -/
def layout (Γ : FloatOps) (shape : Shaper) (doc : StyledDocument) (viewport : Size) :
    Part (Except LayoutError FragmentTree) := do
  let tree ← BoxGen.build Γ doc
  let (fragments, error) ← run Γ shape tree doc.document viewport
  return match error with
    | some e => .error e
    | none => .ok fragments

end Block

end ChromeLight
