import ChromeLight.Lemmas.Block

/-!
# What a relative position does not change

`still` forgets what relative positioning may change: the position of every style, and the rects of every fragment. Two box
trees that are the same but for positions are laid out in lockstep (`run_still`), as long as the shaper does not look at
positions: no place, no size, no id and no run of glyphs in the walk is computed from a position or from a rect that was
moved.
-/

namespace ChromeLight

/-! ## Forgetting positions and rects -/

/-- The style without its relative positioning. -/
def LayoutStyle.still (style : LayoutStyle) : LayoutStyle := { style with position := .static }

/-- The box with its style so. -/
def LayoutBox.still (b : LayoutBox) : LayoutBox := { b with style := b.style.still }

/-- The tree with every style so. -/
def BoxTree.still (tree : BoxTree) : BoxTree := { tree with boxes := tree.boxes.map LayoutBox.still }

/-- The item with the style of its text so. -/
def InlineItem.still : InlineItem → InlineItem
  | .text chars style node => .text chars style.still node
  | .lineBreak => .lineBreak

/-- The fragment without its rects. -/
def Fragment.still (f : Fragment) : Fragment :=
  { f with borderBox := .zero, paddingBox := .zero, contentBox := .zero }

/-- The arenas without rects and positioning. -/
def Arenas.still (a : Arenas) : Arenas where
  fragments := a.fragments.map Fragment.still
  styles := a.styles.map LayoutStyle.still

/-- The tree without its rects and its positioning. -/
def FragmentTree.still (tree : FragmentTree) : FragmentTree :=
  { tree with fragments := tree.fragments.map Fragment.still, styles := tree.styles.map LayoutStyle.still }

/-- The shaper does not look at the position of a style. -/
def Shaper.IgnoresPosition (shape : Shaper) : Prop :=
  ∀ items style width, shape (items.map InlineItem.still) style.still width = shape items style width

/-- Boxes stay where they are. -/
theorem BoxTree.get_still (tree : BoxTree) (id : BoxId) : tree.still.get id = (tree.get id).map LayoutBox.still :=
  List.getElem?_map

/-- Results of the same id and of arenas that differ in positions and rects only. -/
def Alike {α : Type} (r r' : α × Arenas) : Prop := r.1 = r'.1 ∧ r.2.still = r'.2.still

/-- Alike arenas have the same number of fragments and of styles. -/
theorem Arenas.length_of_still {a a' : Arenas} (h : a.still = a'.still) :
    a.fragments.length = a'.fragments.length ∧ a.styles.length = a'.styles.length := by
  have hf := congrArg (fun b => b.fragments.length) h
  have hs := congrArg (fun b => b.styles.length) h
  simpa only [Arenas.still, List.length_map] using And.intro hf hs

/-- Pushing alike fragments with alike styles keeps the arenas alike. -/
theorem Arenas.push_alike {a a' : Arenas} (h : a.still = a'.still) {style style' : LayoutStyle}
    (hs : style.still = style'.still) (f f' : StyleId → Fragment) (hf : ∀ id, (f id).still = (f' id).still) :
    Alike (a.push style f) (a'.push style' f') := by
  obtain ⟨h1, h2⟩ := Arenas.length_of_still h
  have hfragments := congrArg Arenas.fragments h
  have hstyles := congrArg Arenas.styles h
  simp only [Arenas.still] at hfragments hstyles
  refine ⟨congrArg FragmentId.mk h1, ?_⟩
  simp only [Arenas.push, Arenas.still, List.map_append, hfragments, hstyles, h2, List.map_cons, List.map_nil, hs, hf]

/-! ## Inline content -/

namespace Inline

variable {tree : BoxTree} {document : Document} {shape : Shaper}

/-- The arguments of inline layout, the container's style so. -/
def InlineArgs.still (args : InlineArgs) : InlineArgs := { args with containerStyle := args.containerStyle.still }

/-- Positioning does not change which pieces of text there are. -/
theorem collectPieces_still (tree : BoxTree) (document : Document) (n : Nat) (stack : List BoxId) (suppress : Bool) :
    collectPieces tree.still document n stack suppress
      = (collectPieces tree document n stack suppress).map InlineItem.still := by
  induction n generalizing stack suppress with
  | zero => rfl
  | succ n ih =>
    cases stack with
    | nil => rfl
    | cons id stack =>
      simp only [collectPieces, BoxTree.get_still]
      cases tree.get id with
      | none => exact ih stack suppress
      | some b =>
        obtain ⟨node, kind, style, children⟩ := b
        cases kind with
        | inlineText node => exact congrArg (InlineItem.text _ style.still node :: ·) (ih stack _)
        | lineBreak => exact congrArg (InlineItem.lineBreak :: ·) (ih stack true)
        | inline => exact ih _ suppress
        | anonymousInline => exact ih _ suppress
        | block => exact ih stack suppress
        | anonymousBlock => exact ih stack suppress

/-- An item keeps its node. -/
theorem itemSource_still (items : List InlineItem) (style : LayoutStyle) (item : Nat) :
    itemSource (items.map InlineItem.still) style.still item
      = ((itemSource items style item).1, (itemSource items style item).2.still) := by
  simp only [itemSource, List.getElem?_map]
  cases items[item]? with
  | none => rfl
  | some i => cases i <;> rfl

/-- A text fragment, pushed in both layouts. -/
theorem pushText_alike (args : InlineArgs) (items : List InlineItem) (line : LineBox) (lineTop : Au) (group : RunGroup)
    {a a' : Arenas} (h : a.still = a'.still) :
    Alike (pushText args items line lineTop group a)
      (pushText args.still (items.map InlineItem.still) line lineTop group a') := by
  have hsource := itemSource_still items args.containerStyle group.item
  simp only [pushText]
  refine Arenas.push_alike h ?_ _ _ fun id => ?_
  · exact (congrArg (fun p => p.2.still) hsource).symm
  · have hnode := congrArg Prod.fst hsource
    simp only [Fragment.still, InlineArgs.still] at hnode ⊢
    rw [hnode]

/-- The text fragments of a line, pushed in both layouts. -/
theorem pushTexts_alike (args : InlineArgs) (items : List InlineItem) (line : LineBox) (lineTop : Au)
    (groups : List RunGroup) {a a' : Arenas} (h : a.still = a'.still) :
    Alike (pushTexts args items line lineTop groups a)
      (pushTexts args.still (items.map InlineItem.still) line lineTop groups a') := by
  induction groups generalizing a a' with
  | nil => exact ⟨rfl, h⟩
  | cons group groups ih =>
    obtain ⟨h1, h2⟩ := pushText_alike args items line lineTop group h
    obtain ⟨h3, h4⟩ := ih h2
    simp only [pushTexts]
    exact ⟨by rw [h1, h3], h4⟩

/-- A line with its texts, pushed in both layouts. -/
theorem pushLine_alike (args : InlineArgs) (items : List InlineItem) (line : LineBox) (cursorY : Au) {a a' : Arenas}
    (h : a.still = a'.still) :
    Alike (pushLine args items line cursorY a) (pushLine args.still (items.map InlineItem.still) line cursorY a') := by
  obtain ⟨h1, h2⟩ := pushTexts_alike args items line (args.contentOrigin.y.saturatingAdd cursorY) (groupRuns line) h
  simp only [pushLine]
  refine Arenas.push_alike h2 (show args.containerStyle.still = args.still.containerStyle.still from rfl) _ _
    fun id => ?_
  exact congrArg (fun children => (⟨none, .line, .zero, .zero, .zero, id, children⟩ : Fragment)) h1

/-- The lines of a leaf, pushed in both layouts. -/
theorem buildFragments_alike (args : InlineArgs) (items : List InlineItem) (lines : List LineBox) (cursorY : Au)
    {a a' : Arenas} (h : a.still = a'.still) :
    Alike (buildFragments args items lines cursorY a)
      (buildFragments args.still (items.map InlineItem.still) lines cursorY a') := by
  induction lines generalizing cursorY a a' with
  | nil => exact ⟨rfl, h⟩
  | cons line lines ih =>
    obtain ⟨h1, h2⟩ := pushLine_alike args items line cursorY h
    obtain ⟨h3, h4⟩ := ih (cursorY.saturatingAdd line.height) h2
    have h5 := congrArg Prod.fst h3
    have h6 := congrArg Prod.snd h3
    simp only [buildFragments]
    exact ⟨Prod.ext (by rw [h1, h5]) h6, h4⟩

/-- Inline layout fails alike, or gives the same lines. -/
theorem layout_alike (hs : shape.IgnoresPosition) (tree : BoxTree) (document : Document) (args : InlineArgs)
    {a a' : Arenas} (h : a.still = a'.still) :
    (∃ e, layout shape tree document args a = .error e ∧ layout shape tree.still document args.still a' = .error e) ∨
    ∃ r r', layout shape tree document args a = .ok r ∧ layout shape tree.still document args.still a' = .ok r' ∧
      Alike r r' := by
  have hlen : tree.still.len = tree.len := List.length_map _
  have hitems := collectPieces_still tree document tree.len args.children true
  have hshape := hs (collectPieces tree document tree.len args.children true) args.containerStyle args.contentWidth
  simp only [layout, InlineArgs.still, hlen, hitems, hshape]
  cases shape (collectPieces tree document tree.len args.children true) args.containerStyle args.contentWidth with
  | error e => exact .inl ⟨e, rfl, rfl⟩
  | ok lines => exact .inr ⟨_, _, rfl, rfl, buildFragments_alike args _ lines .zero h⟩

end Inline

/-! ## The walk -/

namespace Block

variable {Γ : FloatOps} {shape : Shaper} {tree : BoxTree} {document : Document} {viewport : Size}

/-- The frame with its style so. -/
def Frame.still (frame : Frame) : Frame := { frame with style := frame.style.still }

/-- The state of the walk with the styles of its frames so, and its arenas. -/
def LayoutState.still (s : LayoutState) : LayoutState :=
  { s with stack := s.stack.map Frame.still, arenas := s.arenas.still }

/-- The box model does not read positioning. -/
theorem resolveBoxModel_still (style : LayoutStyle) (w : Au) (h : Option Au) :
    resolveBoxModel Γ style.still w h = resolveBoxModel Γ style w h := rfl

/-- A block-level child is one whatever its positioning. -/
theorem blockLevelChild_still (child : Option BoxId) : blockLevelChild tree.still child = blockLevelChild tree child := by
  cases child with
  | none => rfl
  | some id =>
    simp only [blockLevelChild, BoxTree.get_still]
    cases tree.get id <;> rfl

/-- The first block-level child does not depend on positioning. -/
theorem firstBlockChild_still (id : BoxId) : firstBlockChild tree.still id = firstBlockChild tree id := by
  rw [firstBlockChild, blockLevelChild_still, BoxTree.get_still, Option.bind_map]
  rfl

/-- The last block-level child does not depend on positioning. -/
theorem lastBlockChild_still (id : BoxId) : lastBlockChild tree.still id = lastBlockChild tree id := by
  rw [lastBlockChild, blockLevelChild_still, BoxTree.get_still, Option.bind_map]
  rfl

/-- A block container is one whatever the positioning in it. -/
theorem isBlockContainer_still (id : BoxId) : isBlockContainer tree.still id = isBlockContainer tree id := by
  rw [isBlockContainer, firstBlockChild_still, isBlockContainer]

/-- An edge that does not look at positions. -/
structure Edge.IgnoresPosition (edge : Edge) : Prop where
  blockChild : ∀ (tree : BoxTree) id, edge.blockChild tree.still id = edge.blockChild tree id
  collapsesThrough : ∀ (style : LayoutStyle) model, edge.collapsesThrough style.still model = edge.collapsesThrough style model

/-- Top margins collapse without regard to positioning. -/
theorem topEdge_ignoresPosition : topEdge.IgnoresPosition := ⟨fun _ => firstBlockChild_still, fun _ _ => rfl⟩

/-- Bottom margins collapse without regard to positioning. -/
theorem bottomEdge_ignoresPosition : bottomEdge.IgnoresPosition := ⟨fun _ => lastBlockChild_still, fun _ _ => rfl⟩

/-- A margin chain does not depend on positioning. -/
theorem chainBelow_still {edge : Edge} (he : edge.IgnoresPosition) (memo : List (Option Au)) (n : Nat) (id : BoxId)
    (style : LayoutStyle) (model : BoxModel) :
    chainBelow Γ tree.still edge memo n id style.still model = chainBelow Γ tree edge memo n id style model := by
  induction n generalizing id style model with
  | zero => rfl
  | succ n ih =>
    simp only [chainBelow, he.blockChild, he.collapsesThrough, BoxTree.get_still]
    cases edge.blockChild tree id with
    | none => rfl
    | some c =>
      cases hg : tree.get c with
      | none => simp only [hg, Option.map_none]
      | some child =>
        have := ih c child.style (resolveBoxModel Γ child.style model.contentWidth none)
        simp only [hg, Option.map_some, LayoutBox.still, resolveBoxModel_still, this]

/-- An effective margin does not depend on positioning, nor does the memo it leaves. -/
theorem effectiveMargin_still {edge : Edge} (he : edge.IgnoresPosition) (memo : List (Option Au)) (id : BoxId)
    (style : LayoutStyle) (model : BoxModel) :
    effectiveMargin Γ tree.still edge id style.still model memo = effectiveMargin Γ tree edge id style model memo := by
  have hlen : tree.still.len = tree.len := List.length_map _
  rw [effectiveMargin, chainBelow_still he, hlen, effectiveMargin]

/-- Where a child is put does not depend on its own positioning. -/
theorem placeChild_still (id : BoxId) (style : LayoutStyle) (parent : Frame) (memo : MarginMemo) :
    placeChild Γ tree.still id style.still parent memo = placeChild Γ tree id style parent memo := by
  simp only [placeChild, effectiveMarginTop, effectiveMarginBottom, resolveBoxModel_still,
    effectiveMargin_still topEdge_ignoresPosition, effectiveMargin_still bottomEdge_ignoresPosition]

/-- A shift moves nothing but rects. -/
theorem shiftFragment_still (dx dy : Au) (f : Fragment) : (shiftFragment dx dy f).still = f.still := rfl

/-- Shifting some fragments leaves all of them alike. -/
theorem map_shiftFrom (start : Nat) (dx dy : Au) (l : List Fragment) :
    (shiftFrom start dx dy l).map Fragment.still = l.map Fragment.still := by
  have h : Fragment.still ∘ shiftFragment dx dy = Fragment.still := funext (shiftFragment_still dx dy)
  rw [shiftFrom, List.map_append, List.map_map, h, ← List.map_append, List.take_append_drop]

/-- Appending a block's fragment and moving its subtree changes, but for rects, only by the new fragment. -/
theorem Finished.push_alike (Γ : FloatOps) (b : Finished) (a : Arenas) :
    Alike (b.push Γ a) (a.push b.style b.fragment) := by
  by_cases hp : b.style.position = .relative
  · simp only [Finished.push, if_pos hp]
    refine ⟨rfl, ?_⟩
    simp only [Arenas.still, map_shiftFrom]
  · simp only [Finished.push, if_neg hp]
    exact ⟨rfl, rfl⟩

/-- Blocks that differ in the position of their styles only. -/
theorem Finished.push_still (Γ : FloatOps) (b : Finished) {style : LayoutStyle} (hst : b.style.still = style.still) {a a' : Arenas}
    (h : a.still = a'.still) : Alike (b.push Γ a) (Finished.push Γ { b with style } a') := by
  obtain ⟨h1, h2⟩ := b.push_alike Γ a
  obtain ⟨h3, h4⟩ := Finished.push_alike Γ { b with style } a'
  obtain ⟨h5, h6⟩ := Arenas.push_alike h hst b.fragment (Finished.fragment { b with style }) fun _ => rfl
  exact ⟨h1.trans (h5.trans h3.symm), h2.trans (h6.trans h4.symm)⟩

/-- The content of a leaf, laid out in both layouts. -/
theorem leafContent_alike (hs : shape.IgnoresPosition) (tree : BoxTree) (document : Document) (child : LayoutBox)
    (placement : ChildPlacement) {a a' : Arenas} (h : a.still = a'.still) (error : Option LayoutError) :
    Alike (leafContent shape tree document child placement a error).1
        (leafContent shape tree.still document child.still placement a' error).1 ∧
      (leafContent shape tree document child placement a error).2
        = (leafContent shape tree.still document child.still placement a' error).2 := by
  have hempty : child.still.children.isEmpty = child.children.isEmpty := rfl
  unfold leafContent
  rw [hempty]
  split
  · exact ⟨⟨rfl, h⟩, rfl⟩
  · rcases Inline.layout_alike hs tree document ⟨child.children, child.style,
      contentOriginOf placement.origin placement.model, placement.model.contentWidth⟩ h with
      ⟨e, h1, h2⟩ | ⟨r, r', h1, h2, hr⟩
    · simp only [h1, Inline.InlineArgs.still] at h2 ⊢
      simp only [LayoutBox.still, h2]
      exact ⟨⟨rfl, h⟩, trivial⟩
    · simp only [h1, Inline.InlineArgs.still] at h2 ⊢
      simp only [LayoutBox.still, h2]
      exact ⟨hr, trivial⟩

/-- A leaf of a tree without positions gets the same fragments, but for rects. -/
theorem layoutLeaf_still (Γ : FloatOps) (hs : shape.IgnoresPosition) (tree : BoxTree) (document : Document) (child : LayoutBox)
    (placement : ChildPlacement) {a a' : Arenas} (h : a.still = a'.still) (error : Option LayoutError) :
    let r := layoutLeaf Γ shape tree document child placement a error
    let r' := layoutLeaf Γ shape tree.still document child.still placement a' error
    r.1 = r'.1 ∧ r.2.1.still = r'.2.1.still ∧ r.2.2 = r'.2.2 := by
  obtain ⟨⟨h1, h2⟩, h3⟩ := leafContent_alike hs tree document child placement h error
  obtain ⟨h4, h5⟩ := Finished.push_still Γ (finishedLeaf a.fragments.length child placement
    (leafContent shape tree document child placement a error).1.1.1
    (leafContent shape tree document child placement a error).1.1.2) (show child.style.still = child.style.still.still from rfl) h2
  have hlen := (Arenas.length_of_still h).1
  have hlines := congrArg Prod.fst h1
  have hheight := congrArg Prod.snd h1
  simp only [hlines, hheight, hlen] at h4 h5
  simp only [layoutLeaf, hlines, hheight, hlen]
  exact ⟨Prod.ext h4 rfl, h5, h3⟩

/-- Frames that differ in the position of their styles only. -/
theorem Frame.eq_of_still {frame frame' : Frame} (h : frame.still = frame'.still) :
    ∃ style, frame.style.still = style.still ∧ frame' = { frame with style } := by
  refine ⟨frame'.style, congrArg Frame.style h, ?_⟩
  obtain ⟨⟩ := frame
  obtain ⟨⟩ := frame'
  simp only [Frame.still, Frame.mk.injEq] at h ⊢
  tauto

/-- Placing a child in a tree without positions keeps the states the same but for positions and rects. -/
theorem advanceChild_still (hs : shape.IgnoresPosition) {top : Frame} {style : LayoutStyle}
    (hst : top.style.still = style.still) {stack stack' : List Frame} (hstack : stack.map Frame.still = stack'.map Frame.still)
    {a a' : Arenas} (h : a.still = a'.still) (memo : MarginMemo) (error : Option LayoutError) :
    (advanceChild Γ shape tree document top stack ⟨top :: stack, a, memo, error⟩).still
      = (advanceChild Γ shape tree.still document { top with style } stack' ⟨{ top with style } :: stack', a', memo, error⟩).still := by
  have hlen := (Arenas.length_of_still h).1
  have hframe : ∀ n, ({ top with nextChild := n } : Frame).still = ({ top with style, nextChild := n } : Frame).still := by
    intro n
    simp only [Frame.still, hst]
  simp only [advanceChild]
  cases hc : top.blockChildren[top.nextChild]? with
  | none =>
    simp only [LayoutState.still, List.map_cons, hstack, h, Frame.still, hst]
  | some id =>
    simp only [BoxTree.get_still]
    cases hg : tree.get id with
    | none => simp only [Option.map_none, LayoutState.still, List.map_cons, hstack, h, hframe]
    | some child =>
      have hplace : placeChild Γ tree.still id child.still.style { top with style, nextChild := top.nextChild + 1 } memo
          = placeChild Γ tree id child.style { top with nextChild := top.nextChild + 1 } memo :=
        placeChild_still id child.style _ memo
      simp only [Option.map_some, isBlockContainer_still, hplace]
      cases isBlockContainer tree id with
      | true =>
        simp only [if_true, LayoutState.still, List.map_cons, hstack, h, hframe, hlen]
        rfl
      | false =>
        obtain ⟨h1, h2, h3⟩ := layoutLeaf_still Γ hs tree document child
          (placeChild Γ tree id child.style { top with nextChild := top.nextChild + 1 } memo).1 h error
        simp only [Bool.false_eq_true, if_false, LayoutState.still, List.map_cons, hstack, h1, h2, h3]
        simp only [Frame.childDone, Frame.still, hst]

/-- One iteration in a tree without positions. -/
theorem runStep_still (Γ : FloatOps) (tree : BoxTree) (document : Document) (viewport : Size) (hs : shape.IgnoresPosition)
    {s t : LayoutState} (h : s.still = t.still) :
    (∃ s' t', runStep Γ shape tree document viewport s = .inl s' ∧
      runStep Γ shape tree.still document viewport t = .inl t' ∧ s'.still = t'.still) ∨
    ∃ r r', runStep Γ shape tree document viewport s = .inr r ∧
      runStep Γ shape tree.still document viewport t = .inr r' ∧ r.1.still = r'.1.still ∧ r.2 = r'.2 := by
  obtain ⟨stack, a, memo, error⟩ := s
  obtain ⟨stack', a', memo', error'⟩ := t
  simp only [LayoutState.still, LayoutState.mk.injEq] at h
  obtain ⟨hstack, ha, rfl, rfl⟩ := h
  cases stack with
  | nil =>
    obtain rfl := List.map_eq_nil_iff.1 hstack.symm
    obtain ⟨h1, h2⟩ := Arenas.push_alike ha (rfl : (LayoutStyle.initial Γ).still = (LayoutStyle.initial Γ).still)
      (fun style => ⟨none, .anonymousBlock, .zero, .zero, .zero, style, []⟩) _ fun _ => rfl
    refine .inr ⟨_, _, rfl, rfl, ?_, rfl⟩
    simp only [emptyTree, FragmentTree.still, FragmentTree.mk.injEq]
    exact ⟨congrArg Arenas.fragments h2, congrArg Arenas.styles h2, h1, trivial⟩
  | cons top stack =>
    obtain ⟨top', stack', rfl, htop, hrest⟩ := List.map_eq_cons_iff.1 hstack.symm
    obtain ⟨style, hst, rfl⟩ := Frame.eq_of_still htop.symm
    by_cases hlt : top.nextChild < top.blockChildren.length
    · exact .inl ⟨_, _, if_pos hlt, if_pos hlt, advanceChild_still hs hst hrest.symm ha memo error⟩
    · simp only [runStep, if_neg hlt]
      obtain ⟨h1, h2⟩ := Finished.push_still Γ top.finished hst ha
      cases stack with
      | nil =>
        obtain rfl := List.map_eq_nil_iff.1 hrest
        refine .inr ⟨_, _, rfl, rfl, ?_, rfl⟩
        simp only [FragmentTree.still, FragmentTree.mk.injEq]
        exact ⟨congrArg Arenas.fragments h2, congrArg Arenas.styles h2, h1, trivial⟩
      | cons parent stack =>
        obtain ⟨parent', stack', rfl, hparent, hbelow⟩ := List.map_eq_cons_iff.1 hrest
        obtain ⟨pstyle, hpst, rfl⟩ := Frame.eq_of_still hparent.symm
        -- the popped frames have the same data but for the position of their styles
        refine .inl ⟨⟨parent.childDone top.borderBoxOrigin top.finished.borderBoxSize.h top.effectiveMarginBottomForParent
            (top.finished.push Γ a).1 :: stack, (top.finished.push Γ a).2, memo, error⟩,
          ⟨Frame.childDone { parent with style := pstyle } top.borderBoxOrigin top.finished.borderBoxSize.h
            top.effectiveMarginBottomForParent (Finished.push Γ { top.finished with style } a').1 :: stack',
            (Finished.push Γ { top.finished with style } a').2, memo, error⟩, rfl, rfl, ?_⟩
        rw [h1]
        simp only [LayoutState.still, List.map_cons, h2, hbelow]
        simp only [Frame.childDone, Frame.still, hpst]

/-- The layout of a tree and that of the tree without positions are the same but for positions and rects. -/
theorem run_still (hs : shape.IgnoresPosition) {fragments : FragmentTree} {error : Option LayoutError}
    (h : run Γ shape tree document viewport = .some (fragments, error)) :
    ∃ fragments', run Γ shape tree.still document viewport = .some (fragments', error) ∧
      fragments.still = fragments'.still := by
  have hlen : tree.still.len = tree.len := List.length_map _
  have hroot : tree.still.root = tree.root := rfl
  unfold run at h ⊢
  rw [hroot, BoxTree.get_still]
  cases hg : tree.get tree.root with
  | none =>
    rw [hg] at h
    exact ⟨fragments, h, rfl⟩
  | some root =>
    simp only [hg] at h
    simp only [Option.map_some, isBlockContainer_still]
    split at h
    · rename_i hk
      rw [if_pos hk]
      have hstart : (startState tree viewport root (resolveBoxModel Γ root.style viewport.w (some viewport.h))).still
          = (startState tree.still viewport root.still
            (resolveBoxModel Γ root.still.style viewport.w (some viewport.h))).still := by
        simp only [startState, hlen]
        rfl
      obtain ⟨⟨fragments', error'⟩, hrun, hstill, rfl⟩ := While.loop_lockstep (runStep Γ shape tree.still document viewport)
        (R := fun s t => s.still = t.still) (Q := fun r r' => r.1.still = r'.1.still ∧ r.2 = r'.2)
        (fun s t s' hst hb => by
          rcases runStep_still Γ tree document viewport hs hst with
            ⟨s1, t1, h1, h2, h3⟩ | ⟨r, r', h1, h2, h3⟩
          · obtain rfl := Sum.inl.inj (h1.symm.trans hb)
            exact ⟨t1, h2, h3⟩
          · cases h1.symm.trans hb)
        (fun s t r hst hb => by
          rcases runStep_still Γ tree document viewport hs hst with
            ⟨s1, t1, h1, h2, h3⟩ | ⟨r1, r', h1, h2, h3⟩
          · cases h1.symm.trans hb
          · obtain rfl := Sum.inr.inj (h1.symm.trans hb)
            exact ⟨r', h2, h3⟩)
        hstart h
      exact ⟨fragments', hrun, hstill⟩
    · rename_i hk
      rw [if_neg hk]
      obtain ⟨h1, h2, h3⟩ := layoutLeaf_still Γ hs tree document root
        ⟨resolveBoxModel Γ root.style viewport.w (some viewport.h),
          ⟨(resolveBoxModel Γ root.style viewport.w (some viewport.h)).marginLeft,
            (resolveBoxModel Γ root.style viewport.w (some viewport.h)).marginTop⟩, .zero, viewport.w, some viewport.h⟩
        (show Arenas.still ⟨[], []⟩ = Arenas.still ⟨[], []⟩ from rfl) none
      obtain ⟨rfl, rfl⟩ := Prod.mk.inj (Part.some_injective h)
      refine ⟨_, congrArg Part.some (Prod.ext rfl h3.symm), ?_⟩
      simp only [FragmentTree.still, FragmentTree.mk.injEq]
      exact ⟨congrArg Arenas.fragments h2, congrArg Arenas.styles h2, congrArg Prod.fst h1, trivial⟩

/-- Two trees that differ in positions only have layouts that differ in positions and rects only. -/
theorem run_alike (hs : shape.IgnoresPosition) {tree' : BoxTree} (htree : tree.still = tree'.still)
    {fragments fragments' : FragmentTree} {error error' : Option LayoutError}
    (h : run Γ shape tree document viewport = .some (fragments, error))
    (h' : run Γ shape tree' document viewport = .some (fragments', error')) :
    fragments.still = fragments'.still ∧ error = error' := by
  obtain ⟨f, hf, he⟩ := run_still hs h
  obtain ⟨f', hf', he'⟩ := run_still hs h'
  rw [← htree, hf] at hf'
  obtain ⟨rfl, rfl⟩ := Prod.mk.inj (Part.some_injective hf')
  exact ⟨he.trans he'.symm, rfl⟩

end Block

end ChromeLight
