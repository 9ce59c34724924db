import ChromeLight.Lemmas.Outline
import ChromeLight.Lemmas.Push

/-!
# Where relative positions move fragments

The walk over a tree and the walk over the tree without positions, in lockstep (`walk_moves`): they append the same
fragments, but for the moves that the first one makes. A fragment is moved once for every block around it, from the inside
out (`settle`), by offsets that are those of the branch of the block in the forest of boxes (`offsets`).
-/

namespace ChromeLight

open Postorder (branches)

/-! ## The same fragments -/

/-- Arenas of the same size. -/
def Arenas.Level (a a' : Arenas) : Prop := a.fragments.length = a'.fragments.length ∧ a.styles.length = a'.styles.length

/-- Two results with the same fragments appended to arenas of the same size. -/
structure Grow {α : Type} (a a' : Arenas) (r r' : α × Arenas) : Prop where
  same : r.1 = r'.1
  fragments : ∃ X, r.2.fragments = a.fragments ++ X ∧ r'.2.fragments = a'.fragments ++ X
  styles : r.2.styles.length = r'.2.styles.length

namespace Grow

variable {α : Type} {a a' : Arenas}

/-- Arenas that grow alike stay level. -/
theorem level {r r' : α × Arenas} (h : Grow a a' r r') (ha : a.Level a') : r.2.Level r'.2 := by
  obtain ⟨X, hX, hX'⟩ := h.fragments
  exact ⟨by rw [hX, hX', List.length_append, List.length_append, ha.1], h.styles⟩

/-- Nothing grows. -/
theorem refl (x : α) (ha : a.Level a') : Grow a a' (x, a) (x, a') :=
  ⟨rfl, ⟨[], (List.append_nil _).symm, (List.append_nil _).symm⟩, ha.2⟩

/-- Growing twice is growing. -/
theorem trans {β : Type} {r r' : α × Arenas} {t t' : β × Arenas} (h : Grow a a' r r') (h' : Grow r.2 r'.2 t t') :
    Grow a a' t t' := by
  obtain ⟨X, hX, hX'⟩ := h.fragments
  obtain ⟨Y, hY, hY'⟩ := h'.fragments
  exact ⟨h'.same, ⟨X ++ Y, by rw [hY, hX, List.append_assoc], by rw [hY', hX', List.append_assoc]⟩, h'.styles⟩

/-- Both arenas grow by one fragment. -/
theorem push (ha : a.Level a') (style style' : LayoutStyle) {f f' : StyleId → Fragment} (hf : f = f') :
    Grow a a' (a.push style f) (a'.push style' f') := by
  refine ⟨congrArg FragmentId.mk ha.1, ⟨[f ⟨a.styles.length⟩], rfl, ?_⟩, ?_⟩
  · rw [hf, ha.2]
    rfl
  · simp only [Arenas.push, List.length_append, List.length_singleton, ha.2]

end Grow

namespace Inline

variable {shape : Shaper}

/-- Both arenas grow by a text fragment. -/
theorem pushText_grow (args : InlineArgs) (items : List InlineItem) (line : LineBox) (lineTop : Au) (group : RunGroup)
    {a a' : Arenas} (ha : a.Level a') :
    Grow a a' (pushText args items line lineTop group a)
      (pushText args.still (items.map InlineItem.still) line lineTop group a') := by
  have hsource := itemSource_still items args.containerStyle group.item
  have hnode := congrArg Prod.fst hsource
  simp only [pushText]
  refine Grow.push ha _ _ (funext fun id => ?_)
  simp only [InlineArgs.still] at hnode ⊢
  rw [hnode]

/-- Both arenas grow by the texts of a line. -/
theorem pushTexts_grow (args : InlineArgs) (items : List InlineItem) (line : LineBox) (lineTop : Au) (groups : List RunGroup)
    {a a' : Arenas} (ha : a.Level a') :
    Grow a a' (pushTexts args items line lineTop groups a)
      (pushTexts args.still (items.map InlineItem.still) line lineTop groups a') := by
  induction groups generalizing a a' with
  | nil => exact Grow.refl _ ha
  | cons group groups ih =>
    have h1 := pushText_grow args items line lineTop group ha
    have h2 := ih (h1.level ha)
    refine ⟨?_, (h1.trans h2).fragments, h2.styles⟩
    simp only [pushTexts]
    rw [h1.same, h2.same]

/-- Both arenas grow by a line. -/
theorem pushLine_grow (args : InlineArgs) (items : List InlineItem) (line : LineBox) (cursorY : Au) {a a' : Arenas}
    (ha : a.Level a') :
    Grow a a' (pushLine args items line cursorY a) (pushLine args.still (items.map InlineItem.still) line cursorY a') := by
  have h1 := pushTexts_grow args items line (args.contentOrigin.y.saturatingAdd cursorY) (groupRuns line) ha
  simp only [pushLine]
  refine h1.trans (Grow.push (h1.level ha) _ _ (funext fun id => ?_))
  exact congrArg (fun children => (⟨none, .line, _, _, _, id, children⟩ : Fragment)) h1.same

/-- Both arenas grow by the lines of a leaf. -/
theorem buildFragments_grow (args : InlineArgs) (items : List InlineItem) (lines : List LineBox) (cursorY : Au)
    {a a' : Arenas} (ha : a.Level a') :
    Grow a a' (buildFragments args items lines cursorY a)
      (buildFragments args.still (items.map InlineItem.still) lines cursorY a') := by
  induction lines generalizing cursorY a a' with
  | nil => exact Grow.refl _ ha
  | cons line lines ih =>
    have h1 := pushLine_grow args items line cursorY ha
    have h2 := ih (cursorY.saturatingAdd line.height) (h1.level ha)
    have hids := congrArg Prod.fst h2.same
    have hheight := congrArg Prod.snd h2.same
    refine ⟨?_, (h1.trans h2).fragments, h2.styles⟩
    simp only [buildFragments]
    exact Prod.ext (by rw [h1.same, hids]) hheight

end Inline

namespace Block

variable {Γ : FloatOps} {shape : Shaper} {tree : BoxTree} {document : Document} {viewport : Size}

/-- The lines of a leaf do not depend on positions, and have their places. -/
theorem leafContent_grow (hs : shape.IgnoresPosition) (tree : BoxTree) (document : Document) (child : LayoutBox)
    (placement : ChildPlacement) {a a' : Arenas} (ha : a.Level a') (error : Option LayoutError) :
    Grow a a' (leafContent shape tree document child placement a error).1
        (leafContent shape tree.still document child.still placement a' error).1 ∧
      (leafContent shape tree document child placement a error).2
        = (leafContent shape tree.still document child.still placement a' error).2 := by
  have hlen : tree.still.len = tree.len := List.length_map _
  have hitems := Inline.collectPieces_still tree document tree.len child.children true
  have hshape := hs (Inline.collectPieces tree document tree.len child.children true) child.style placement.model.contentWidth
  unfold leafContent
  simp only [LayoutBox.still, Inline.layout, hlen, hitems, hshape]
  split
  · exact ⟨Grow.refl _ ha, rfl⟩
  · cases shape (Inline.collectPieces tree document tree.len child.children true) child.style placement.model.contentWidth with
    | error e => exact ⟨Grow.refl _ ha, rfl⟩
    | ok lines => exact ⟨Inline.buildFragments_grow ⟨child.children, child.style, _, _⟩ _ lines .zero ha, rfl⟩

/-! ## Moved fragments -/

/-- A fragment moved by one offset after the other. -/
def settle (offs : List (Au × Au)) (f : Fragment) : Fragment := offs.foldl (fun f o => shiftFragment o.1 o.2 f) f

/-- The last offset is the last to move a fragment. -/
theorem settle_concat (offs : List (Au × Au)) (o : Au × Au) (f : Fragment) :
    settle (offs ++ [o]) f = shiftFragment o.1 o.2 (settle offs f) := by
  simp only [settle, List.foldl_append, List.foldl_cons, List.foldl_nil]

/-- Fragments moved by the offsets of their branches. -/
def settleAll (O : Forest (List (Au × Au))) (X : List Fragment) : List Fragment :=
  List.zipWith (fun branch f => settle branch.flatten f) (branches O) X

/-- Forests side by side are settled side by side. -/
theorem settleAll_append {O P : Forest (List (Au × Au))} {X : List Fragment} (h : X.length = O.size) (Y : List Fragment) :
    settleAll (O ++ P) (X ++ Y) = settleAll O X ++ settleAll P Y := by
  rw [settleAll, Postorder.branches_append, List.zipWith_append (by rw [Postorder.length_branches, h])]
  rfl

/-- Below a node all move by its offset too. -/
theorem settleAll_node {O : Forest (List (Au × Au))} {X : List Fragment} (h : X.length = O.size) (o : Au × Au) (f : Fragment) :
    settleAll (.cons [o] O .nil) (X ++ [f]) = (settleAll O X ++ [f]).map (shiftFragment o.1 o.2) := by
  have hmap : ∀ branch : List (List (Au × Au)), (fun f => settle (branch ++ [[o]]).flatten f)
      = fun f => shiftFragment o.1 o.2 (settle branch.flatten f) := by
    intro branch
    funext f
    rw [List.flatten_append, List.flatten_singleton, settle_concat]
  rw [settleAll, branches, branches, List.append_nil, List.zipWith_append (by rw [List.length_map, Postorder.length_branches, h]),
    List.map_append, settleAll, List.zipWith_map_left, List.map_zipWith]
  simp only [hmap]
  rfl

/-- The branches of a forest without offsets have none. -/
theorem flatten_of_branches_nil {α : Type} (D : Forest α) :
    ∀ branch ∈ branches (D.map fun _ => ([] : List (Au × Au))), branch.flatten = [] := by
  induction D with
  | nil => exact fun _ hb => absurd hb List.not_mem_nil
  | cons a K R ihK ihR =>
    intro branch hb
    simp only [Forest.map, branches, List.mem_append, List.mem_map, List.mem_singleton] at hb
    rcases hb with (⟨branch', hb, rfl⟩ | rfl) | hb
    · rw [List.flatten_append, ihK branch' hb]
      rfl
    · rfl
    · exact ihR branch hb

/-- Nothing moves where there are no offsets. -/
theorem settleAll_nil {α : Type} (D : Forest α) {X : List Fragment} (h : X.length = D.size) :
    settleAll (D.map fun _ => []) X = X := by
  have hsize : (D.map fun _ => ([] : List (Au × Au))).size = D.size := by
    rw [← Forest.length_preorder, Forest.preorder_map, List.length_map, Forest.length_preorder]
  refine List.ext_getElem (by simp [settleAll, Postorder.length_branches, hsize, h]) ?_
  intro i h1 h2
  simp only [settleAll, List.getElem_zipWith, flatten_of_branches_nil D _ (List.getElem_mem _)]
  rfl

/-- Two walks appended the same fragments, of which those of the first are moved by the offsets of a forest. -/
structure Moves (a a' : Arenas) (O : Forest (List (Au × Au))) (r r' : Arenas) : Prop where
  fragments : ∃ X, X.length = O.size ∧ r.fragments = a.fragments ++ settleAll O X ∧ r'.fragments = a'.fragments ++ X
  styles : r.styles.length = r'.styles.length

namespace Moves

variable {a a' r r' t t' : Arenas} {O P : Forest (List (Au × Au))}

/-- Nothing moves. -/
theorem nil (ha : a.Level a') : Moves a a' .nil a a' :=
  ⟨⟨[], rfl, (List.append_nil _).symm, (List.append_nil _).symm⟩, ha.2⟩

/-- Arenas that differ by moves are level. -/
theorem level (h : Moves a a' O r r') (ha : a.Level a') : r.Level r' := by
  obtain ⟨X, hX, hr, hr'⟩ := h.fragments
  refine ⟨?_, h.styles⟩
  rw [hr, hr', List.length_append, List.length_append, ha.1, settleAll, List.length_zipWith, Postorder.length_branches, hX,
    Nat.min_self]

/-- What moves one after another moves side by side. -/
theorem append (h : Moves a a' O r r') (h' : Moves r r' P t t') : Moves a a' (O ++ P) t t' := by
  obtain ⟨X, hX, hr, hr'⟩ := h.fragments
  obtain ⟨Y, hY, ht, ht'⟩ := h'.fragments
  refine ⟨⟨X ++ Y, ?_, ?_, ?_⟩, h'.styles⟩
  · rw [List.length_append, hX, hY, Forest.size_append]
  · rw [ht, hr, settleAll_append hX, List.append_assoc]
  · rw [ht', hr', List.append_assoc]

/-- Lines and texts are not moved. -/
theorem of_grow {α β : Type} {s s' : α × Arenas} (h : Grow a a' s s') (D : Forest β)
    (hlen : s.2.fragments.length = a.fragments.length + D.size) : Moves a a' (D.map fun _ => []) s.2 s'.2 := by
  obtain ⟨X, hX, hX'⟩ := h.fragments
  have hsize : X.length = D.size := by
    rw [hX, List.length_append] at hlen
    omega
  refine ⟨⟨X, ?_, ?_, hX'⟩, h.styles⟩
  · rw [hsize, ← Forest.length_preorder, ← Forest.length_preorder, Forest.preorder_map, List.length_map]
  · rw [hX, settleAll_nil D hsize]

/-- A block is appended, and moves all that was appended for its subtree. -/
theorem node (h : Moves a a' O r r') (b b' : Finished) (hf : b.fragment = b'.fragment)
    (hstart : b.fragStart = a.fragments.length) (hzero : b'.offset Γ = (.zero, .zero)) :
    Moves a a' (.cons [b.offset Γ] O .nil) (b.push Γ r).2 (b'.push Γ r').2 := by
  obtain ⟨X, hX, hr, hr'⟩ := h.fragments
  refine ⟨⟨X ++ [b.fragment ⟨r.styles.length⟩], ?_, ?_, ?_⟩, ?_⟩
  · simp only [List.length_append, List.length_singleton, Forest.size, hX, Nat.add_zero]
  · rw [b.push_eq, hr, hstart, List.append_assoc, shiftFrom_append, settleAll_node hX]
  · rw [b'.push_eq, hzero, hr', shiftFrom_zero, hf, h.styles, List.append_assoc]
  · simp only [Finished.push_eq, List.length_append, List.length_singleton, h.styles]

end Moves

/-! ## The walk -/

/-- The offsets of the fragments of a forest of boxes, in a containing block of that width and height: a block's own, and none
for the fragments of inline content. -/
def offsets (Γ : FloatOps) (shape : Shaper) (tree : BoxTree) (document : Document) :
    Au → Option Au → Forest BoxId → Forest (List (Au × Au))
  | _, _, .nil => .nil
  | cbWidth, cbHeight, .cons id K R =>
    match tree.get id with
    | none => offsets Γ shape tree document cbWidth cbHeight R
    | some b =>
      let model := resolveBoxModel Γ b.style cbWidth cbHeight
      .cons [relativeOffset Γ b.style cbWidth cbHeight]
        (if isBlockContainer tree id then offsets Γ shape tree document model.contentWidth model.knownHeight K
          else (leafOutline shape tree document b model.contentWidth).map fun _ => [])
        (offsets Γ shape tree document cbWidth cbHeight R)

/-- Without relative positioning there is no offset. -/
theorem relativeOffset_still (Γ : FloatOps) (style : LayoutStyle) (w : Au) (h : Option Au) :
    relativeOffset Γ style.still w h = (.zero, .zero) := if_neg nofun

/-- A leaf moves by its own offset. -/
theorem layoutLeaf_moves (Γ : FloatOps) (hs : shape.IgnoresPosition) (tree : BoxTree) (document : Document)
    (child : LayoutBox) (placement : ChildPlacement) {a a' : Arenas} (ha : a.Level a') (error : Option LayoutError) :
    let r := layoutLeaf Γ shape tree document child placement a error
    let r' := layoutLeaf Γ shape tree.still document child.still placement a' error
    r.1 = r'.1 ∧ r.2.2 = r'.2.2 ∧
      Moves a a' (.cons [relativeOffset Γ child.style placement.cbWidth placement.cbHeight]
        ((leafOutline shape tree document child placement.model.contentWidth).map fun _ => []) .nil) r.2.1 r'.2.1 := by
  obtain ⟨hgrow, herror⟩ := leafContent_grow hs tree document child placement ha error
  have hlays := @leafContent_lays shape tree document child placement a error
  have hlines := Moves.of_grow hgrow (leafOutline shape tree document child placement.model.contentWidth) hlays.length
  have hids := congrArg Prod.fst hgrow.same
  have hheight := congrArg Prod.snd hgrow.same
  have hmoves := hlines.node (Γ := Γ)
    (finishedLeaf a.fragments.length child placement
      (leafContent shape tree document child placement a error).1.1.1
      (leafContent shape tree document child placement a error).1.1.2)
    (finishedLeaf a'.fragments.length child.still placement
      (leafContent shape tree.still document child.still placement a' error).1.1.1
      (leafContent shape tree.still document child.still placement a' error).1.1.2)
    (by rw [hids, hheight]; rfl) rfl (relativeOffset_still Γ child.style placement.cbWidth placement.cbHeight)
  refine ⟨?_, herror, hmoves⟩
  have hlevel := (hlines.level ha).1
  simp only [layoutLeaf, Finished.push_eq, hlevel]
  rw [hids, hheight]
  rfl

/-- The frame with another style. -/
def Frame.restyle (frame : Frame) (style : LayoutStyle) : Frame := { frame with style }

/-- A leaf is done in both walks alike, but for its move. -/
theorem leaf_moves (Γ : FloatOps) (hs : shape.IgnoresPosition) (document : Document) (viewport : Size) {top : Frame}
    (style : LayoutStyle) {id : BoxId} {child : LayoutBox} (hnext : top.blockChildren[top.nextChild]? = some id)
    (hg : tree.get id = some child) (hk : isBlockContainer tree id = false) (stack stack' : List Frame)
    {arenas arenas' : Arenas} (ha : arenas.Level arenas') (memo : MarginMemo) (error : Option LayoutError) :
    ∃ origin height margin fragId memo' error' r r',
      While.Steps (runStep Γ shape tree document viewport) ⟨top :: stack, arenas, memo, error⟩
        ⟨top.next.childDone origin height margin fragId :: stack, r, memo', error'⟩ ∧
      While.Steps (runStep Γ shape tree.still document viewport) ⟨top.restyle style :: stack', arenas', memo, error⟩
        ⟨(top.next.childDone origin height margin fragId).restyle style :: stack', r', memo', error'⟩ ∧
      Moves arenas arenas' (.cons [relativeOffset Γ child.style top.contentWidth top.knownHeight]
        ((leafOutline shape tree document child
          (placeChild Γ tree id child.style top.next memo).1.model.contentWidth).map fun _ => []) .nil) r r' := by
  have hg' := BoxTree.get_still tree id
  rw [hg, Option.map_some] at hg'
  have hk' : isBlockContainer tree.still id = false := (isBlockContainer_still id).trans hk
  have hplace : placeChild Γ tree.still id child.still.style (top.restyle style).next memo
      = placeChild Γ tree id child.style top.next memo := placeChild_still id child.style _ memo
  obtain ⟨hid, herror, hbox⟩ := layoutLeaf_moves Γ hs tree document child
    (placeChild Γ tree id child.style top.next memo).1 ha error
  rcases hr : layoutLeaf Γ shape tree document child (placeChild Γ tree id child.style top.next memo).1 arenas error
    with ⟨⟨fragId, usedHeight⟩, arenasL, errorL⟩
  rcases hr' : layoutLeaf Γ shape tree.still document child.still (placeChild Γ tree id child.style top.next memo).1
    arenas' error with ⟨⟨fragId', usedHeight'⟩, arenasL', errorL'⟩
  simp only [hr, hr'] at hid herror hbox
  obtain ⟨rfl, rfl⟩ := Prod.mk.inj hid
  obtain rfl := herror
  refine ⟨(placeChild Γ tree id child.style top.next memo).1.origin, usedHeight,
    (placeChild Γ tree id child.style top.next memo).1.effectiveMarginBottom, fragId,
    (placeChild Γ tree id child.style top.next memo).2, errorL, arenasL, arenasL', ?_, ?_, hbox⟩
  · exact While.Steps.head ((Advances.leaf hnext hg hk hr).runStep_eq viewport) (While.Steps.refl _)
  · rw [← hplace] at hr'
    have hstep : Advances Γ shape tree.still document ⟨top.restyle style :: stack', arenas', memo, error⟩ _ :=
      .leaf hnext hg' hk' hr'
    rw [hplace] at hstep
    exact While.Steps.head (hstep.runStep_eq viewport) (While.Steps.refl _)

/-- A container whose children are done in both walks alike is done alike too, but for its move and theirs. -/
theorem container_moves (Γ : FloatOps) (shape : Shaper) (document : Document) (viewport : Size) {top : Frame}
    (style : LayoutStyle) {id : BoxId} {child : LayoutBox} (hnext : top.blockChildren[top.nextChild]? = some id)
    (hg : tree.get id = some child) (hk : isBlockContainer tree id = true) (stack stack' : List Frame)
    {arenas arenas' : Arenas} (ha : arenas.Level arenas') (memo : MarginMemo) (error : Option LayoutError) {done : Frame}
    {ids : List FragmentId} {bottom : Au} {margin : Option Au}
    (hdone : done = (containerFrame arenas.fragments.length child (placeChild Γ tree id child.style top.next memo).1).visited
      child.children.length ids bottom margin)
    {O : Forest (List (Au × Au))} {r r' : Arenas} {memo' : MarginMemo} {error' : Option LayoutError}
    (h1 : While.Steps (runStep Γ shape tree document viewport)
      ⟨containerFrame arenas.fragments.length child (placeChild Γ tree id child.style top.next memo).1 :: top.next :: stack,
        arenas, (placeChild Γ tree id child.style top.next memo).2, error⟩ ⟨done :: top.next :: stack, r, memo', error'⟩)
    (h2 : While.Steps (runStep Γ shape tree.still document viewport)
      ⟨(containerFrame arenas.fragments.length child (placeChild Γ tree id child.style top.next memo).1).restyle
          child.still.style :: (top.restyle style).next :: stack', arenas',
        (placeChild Γ tree id child.style top.next memo).2, error⟩
      ⟨done.restyle child.still.style :: (top.restyle style).next :: stack', r', memo', error'⟩)
    (hm : Moves arenas arenas' O r r') :
    ∃ origin height margin fragId t t',
      While.Steps (runStep Γ shape tree document viewport) ⟨top :: stack, arenas, memo, error⟩
        ⟨top.next.childDone origin height margin fragId :: stack, t, memo', error'⟩ ∧
      While.Steps (runStep Γ shape tree.still document viewport) ⟨top.restyle style :: stack', arenas', memo, error⟩
        ⟨(top.next.childDone origin height margin fragId).restyle style :: stack', t', memo', error'⟩ ∧
      Moves arenas arenas' (.cons [relativeOffset Γ child.style top.contentWidth top.knownHeight] O .nil) t t' := by
  have hg' := BoxTree.get_still tree id
  rw [hg, Option.map_some] at hg'
  have hk' : isBlockContainer tree.still id = true := (isBlockContainer_still id).trans hk
  have hplace : placeChild Γ tree.still id child.still.style (top.restyle style).next memo
      = placeChild Γ tree id child.style top.next memo := placeChild_still id child.style _ memo
  have hbox := hm.node (Γ := Γ) done.finished (done.restyle child.still.style).finished rfl (by rw [hdone]; rfl)
    (relativeOffset_still Γ child.style _ _)
  have hoffset : done.finished.offset Γ = relativeOffset Γ child.style top.contentWidth top.knownHeight := by
    rw [hdone]
    rfl
  have hid : (done.finished.push Γ r).1 = (Finished.push Γ (done.restyle child.still.style).finished r').1 := by
    rw [Finished.push_eq, Finished.push_eq, (hm.level ha).1]
  have hfull : done.blockChildren.length ≤ done.nextChild := by
    rw [hdone]
    simp only [Frame.visited, containerFrame, Nat.zero_add, Nat.le_refl]
  rw [hoffset] at hbox
  refine ⟨done.borderBoxOrigin, done.finished.borderBoxSize.h, done.effectiveMarginBottomForParent,
    (done.finished.push Γ r).1, _, _, ?_, ?_, hbox⟩
  · refine While.Steps.head ((Advances.container hnext hg hk).runStep_eq viewport) (h1.trans ?_)
    exact While.Steps.head (Advances.runStep_eq (.finish hfull) viewport) (While.Steps.refl _)
  · have hstep : Advances Γ shape tree.still document ⟨top.restyle style :: stack', arenas', memo, error⟩ _ :=
      .container hnext hg' hk'
    rw [hplace, ← ha.1] at hstep
    have hfinish : Advances Γ shape tree.still document
        ⟨done.restyle child.still.style :: (top.restyle style).next :: stack', r', memo', error'⟩ _ := .finish hfull
    rw [← hid] at hfinish
    exact While.Steps.head (hstep.runStep_eq viewport)
      (h2.trans (While.Steps.head (hfinish.runStep_eq viewport) (While.Steps.refl _)))

/-- The walks over a tree and over the tree without positions place the next children of their top frames alike, but for the
moves of the first. -/
theorem walk_moves (Γ : FloatOps) (hs : shape.IgnoresPosition) (document : Document) (viewport : Size) (F : Forest BoxId)
    (hF : F.Follows tree.kids) (top : Frame) (style : LayoutStyle) (before after : List BoxId)
    (hc : top.blockChildren = before ++ F.roots ++ after) (hn : top.nextChild = before.length) (stack stack' : List Frame)
    {arenas arenas' : Arenas} (ha : arenas.Level arenas') (memo : MarginMemo) (error : Option LayoutError) :
    ∃ ids bottom margin memo' error' r r',
      While.Steps (runStep Γ shape tree document viewport) ⟨top :: stack, arenas, memo, error⟩
        ⟨top.visited F.roots.length ids bottom margin :: stack, r, memo', error'⟩ ∧
      While.Steps (runStep Γ shape tree.still document viewport) ⟨top.restyle style :: stack', arenas', memo, error⟩
        ⟨(top.visited F.roots.length ids bottom margin).restyle style :: stack', r', memo', error'⟩ ∧
      Moves arenas arenas' (offsets Γ shape tree document top.contentWidth top.knownHeight F) r r' := by
  induction F generalizing top style before after stack stack' arenas arenas' memo error with
  | nil =>
    refine ⟨[], top.runningContentBottom, top.prevMarginBottom, memo, error, arenas, arenas', ?_, ?_, Moves.nil ha⟩
    all_goals
      have : top.visited (Forest.nil (α := BoxId)).roots.length [] top.runningContentBottom top.prevMarginBottom = top := by
        simp only [Frame.visited, Forest.roots, List.length_nil, Nat.add_zero, List.append_nil]
      rw [this]
      exact While.Steps.refl _
  | cons id K R ihK ihR =>
    obtain ⟨hK, hK', hR'⟩ := hF
    have hnext : top.blockChildren[top.nextChild]? = some id := by
      rw [hc, hn, List.append_assoc, List.getElem?_append_right (Nat.le_refl _), Nat.sub_self]
      rfl
    have hrest : top.blockChildren = (before ++ [id]) ++ R.roots ++ after := by
      rw [hc]
      simp only [Forest.roots, List.append_assoc, List.singleton_append]
    have hlen : top.nextChild + 1 = (before ++ [id]).length := by rw [hn, List.length_append, List.length_singleton]
    -- a child that is done is followed by the other children
    have follow : ∀ {origin : Point} {height margin : Au} {fragId : FragmentId} {O : Forest (List (Au × Au))}
        {memoK : MarginMemo} {errorK : Option LayoutError} {rK rK' : Arenas},
        While.Steps (runStep Γ shape tree document viewport) ⟨top :: stack, arenas, memo, error⟩
          ⟨top.next.childDone origin height margin fragId :: stack, rK, memoK, errorK⟩ →
        While.Steps (runStep Γ shape tree.still document viewport) ⟨top.restyle style :: stack', arenas', memo, error⟩
          ⟨(top.next.childDone origin height margin fragId).restyle style :: stack', rK', memoK, errorK⟩ →
        Moves arenas arenas' O rK rK' →
        ∃ ids bottom margin memo' error' r r',
          While.Steps (runStep Γ shape tree document viewport) ⟨top :: stack, arenas, memo, error⟩
            ⟨top.visited (Forest.cons id K R).roots.length ids bottom margin :: stack, r, memo', error'⟩ ∧
          While.Steps (runStep Γ shape tree.still document viewport) ⟨top.restyle style :: stack', arenas', memo, error⟩
            ⟨(top.visited (Forest.cons id K R).roots.length ids bottom margin).restyle style :: stack', r', memo', error'⟩ ∧
          Moves arenas arenas' (O ++ offsets Γ shape tree document top.contentWidth top.knownHeight R) r r' := by
      intro origin height margin fragId O memoK errorK rK rK' hK1 hK2 hmK
      obtain ⟨ids, bottom, margin', memo', error', r, r', h1, h2, hm⟩ := ihR hR'
        (top.next.childDone origin height margin fragId) style (before ++ [id]) after hrest hlen stack stack' (hmK.level ha)
        memoK errorK
      rw [Frame.childDone_visited] at h1 h2
      exact ⟨fragId :: ids, bottom, margin', memo', error', r, r', hK1.trans h1, hK2.trans h2, hmK.append hm⟩
    cases hg : tree.get id with
    | none =>
      have hg' := BoxTree.get_still tree id
      rw [hg, Option.map_none] at hg'
      obtain ⟨ids, bottom, margin, memo', error', r, r', h1, h2, hm⟩ :=
        ihR hR' top.next style (before ++ [id]) after hrest hlen stack stack' ha memo error
      rw [Frame.next_visited] at h1 h2
      have hstep : Advances Γ shape tree.still document ⟨top.restyle style :: stack', arenas', memo, error⟩
        ⟨top.next.restyle style :: stack', arenas', memo, error⟩ := .missing hnext hg'
      refine ⟨ids, bottom, margin, memo', error', r, r', While.Steps.head ((Advances.missing hnext hg).runStep_eq viewport) h1,
        While.Steps.head (hstep.runStep_eq viewport) h2, ?_⟩
      rw [offsets, hg]
      exact hm
    | some child =>
      have hkids : K.roots = child.children := by rw [hK, BoxTree.kids, hg]; rfl
      cases hk : isBlockContainer tree id with
      | true =>
        -- the child's own children, on frames of their own
        obtain ⟨idsK, bottomK, marginK, memoK, errorK, rK, rK', hK1, hK2, hmK⟩ := ihK hK'
          (containerFrame arenas.fragments.length child (placeChild Γ tree id child.style top.next memo).1) child.still.style [] []
          (by rw [List.nil_append, List.append_nil, hkids]; rfl) rfl (top.next :: stack) ((top.restyle style).next :: stack')
          ha (placeChild Γ tree id child.style top.next memo).2 error
        rw [hkids] at hK1 hK2
        obtain ⟨origin, height, margin, fragId, t, t', h1, h2, hm⟩ :=
          container_moves Γ shape document viewport style hnext hg hk stack stack' ha memo error rfl hK1 hK2 hmK
        simp only [offsets, hg, hk, if_true]
        exact follow h1 h2 hm
      | false =>
        obtain ⟨origin, height, margin, fragId, memoL, errorL, r, r', h1, h2, hm⟩ :=
          leaf_moves Γ hs document viewport style hnext hg hk stack stack' ha memo error
        simp only [offsets, hg, hk, Bool.false_eq_true, if_false]
        exact follow h1 h2 hm

/-- The layouts of a tree and of the tree without positions have the same fragments, but for the moves of the first. -/
theorem run_moves (Γ : FloatOps) (hs : shape.IgnoresPosition) (document : Document) (viewport : Size) {root : LayoutBox}
    (hroot : tree.get tree.root = some root) {F : Forest BoxId} (hroots : F.roots = [tree.root]) (hF : F.Follows tree.kids) :
    ∃ moved still error, run Γ shape tree document viewport = .some (moved, error) ∧
      run Γ shape tree.still document viewport = .some (still, error) ∧
      still.fragments.length = (offsets Γ shape tree document viewport.w (some viewport.h) F).size ∧
      moved.fragments = settleAll (offsets Γ shape tree document viewport.w (some viewport.h) F) still.fragments := by
  have hlevel : Arenas.Level ⟨[], []⟩ ⟨[], []⟩ := ⟨rfl, rfl⟩
  obtain ⟨K, rfl⟩ := Forest.eq_cons_of_roots hroots
  obtain ⟨hK, hK', -⟩ := hF
  have hkids : K.roots = root.children := by rw [hK, BoxTree.kids, hroot]; rfl
  have hroot' : tree.still.get tree.root = some root.still := by
    rw [BoxTree.get_still, hroot]
    rfl
  have hlen : tree.still.len = tree.len := List.length_map _
  have hdone : ∀ {O : Forest (List (Au × Au))} {a a' : Arenas}, Moves ⟨[], []⟩ ⟨[], []⟩ O a a' →
      a'.fragments.length = O.size ∧ a.fragments = settleAll O a'.fragments := by
    intro O a a' h
    obtain ⟨X, hX, ha, ha'⟩ := h.fragments
    rw [List.nil_append] at ha ha'
    exact ⟨by rw [ha', hX], by rw [ha, ha']⟩
  unfold run
  simp only [hroot, hroot', offsets, show tree.still.root = tree.root from rfl, isBlockContainer_still tree.root]
  cases hk : isBlockContainer tree tree.root with
  | true =>
    simp only [if_true]
    set model := resolveBoxModel Γ root.style viewport.w (some viewport.h) with hmodel
    set frame := rootFrame root ⟨model.marginLeft, model.marginTop⟩ model viewport with hframe
    obtain ⟨ids, bottom, margin, memo, error, r, r', h1, h2, hm⟩ := walk_moves Γ hs document viewport K hK' frame
      root.still.style [] [] (by rw [List.nil_append, List.append_nil, hkids]; rfl) rfl [] [] hlevel (.new tree.len) none
    set done := frame.visited K.roots.length ids bottom margin
    have hbox := hm.node (Γ := Γ) done.finished (done.restyle root.still.style).finished rfl rfl
      (relativeOffset_still Γ root.style _ _)
    have hfull : ¬done.nextChild < done.blockChildren.length := by
      show ¬0 + K.roots.length < root.children.length
      rw [hkids, Nat.zero_add]
      exact Nat.lt_irrefl _
    obtain ⟨hsize, hfragments⟩ := hdone hbox
    refine ⟨⟨(done.finished.push Γ r).2.fragments, (done.finished.push Γ r).2.styles, (done.finished.push Γ r).1, viewport⟩,
      ⟨((done.restyle root.still.style).finished.push Γ r').2.fragments,
        ((done.restyle root.still.style).finished.push Γ r').2.styles, ((done.restyle root.still.style).finished.push Γ r').1,
        viewport⟩, error, h1.loop_eq.trans (While.loop_inr ?_), ?_, hsize, hfragments⟩
    · simp only [runStep, if_neg hfull, finalizeTop]
    · have hstart : startState tree.still viewport root.still (resolveBoxModel Γ root.still.style viewport.w (some viewport.h))
          = ⟨[frame.restyle root.still.style], ⟨[], []⟩, .new tree.len, none⟩ := by
        rw [startState, hlen]
        rfl
      rw [hstart]
      refine h2.loop_eq.trans (While.loop_inr ?_)
      simp only [runStep, finalizeTop]
      rw [if_neg (show ¬(done.restyle root.still.style).nextChild < (done.restyle root.still.style).blockChildren.length from
        hfull)]
  | false =>
    simp only [Bool.false_eq_true, if_false]
    obtain ⟨hid, herror, hbox⟩ := layoutLeaf_moves Γ hs tree document root
      ⟨resolveBoxModel Γ root.style viewport.w (some viewport.h),
        ⟨(resolveBoxModel Γ root.style viewport.w (some viewport.h)).marginLeft,
          (resolveBoxModel Γ root.style viewport.w (some viewport.h)).marginTop⟩, .zero, viewport.w, some viewport.h⟩ hlevel none
    obtain ⟨hsize, hfragments⟩ := hdone hbox
    exact ⟨_, _, _, rfl, congrArg Part.some (Prod.ext rfl herror.symm), hsize, hfragments⟩

end Block

end ChromeLight
