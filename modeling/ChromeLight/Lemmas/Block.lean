import ChromeLight.Lemmas.MarginMemo

/-!
# One iteration of the layout walk

What the walk does in one iteration (`advances_of_runStep`): it places the top container's next child, pushing a frame for a
container and laying out a leaf at once, or it pops the top frame and hands its fragment to the frame below. It returns when
the popped frame was the last.

From this the invariant of the walk (`WalkInv`): the frames on the stack are those of a path of boxes from the root, every
frame has the data of its box in the containing block layout gives it, both memos are good and have the boxes of the path,
and the top frame knows the effective bottom margin of the child before the next one.
-/

namespace ChromeLight

namespace Block

/-- The frame with its next child counted as visited. -/
def Frame.next (frame : Frame) : Frame := { frame with nextChild := frame.nextChild + 1 }

/-- One iteration that goes on. -/
inductive Advances (Γ : FloatOps) (shape : Shaper) (tree : BoxTree) (document : Document) :
    LayoutState → LayoutState → Prop where
  /-- The next child does not resolve. -/
  | missing {top : Frame} {stack : List Frame} {arenas : Arenas} {memo : MarginMemo} {error : Option LayoutError}
      {id : BoxId} (hc : top.blockChildren[top.nextChild]? = some id) (hg : tree.get id = none) :
      Advances Γ shape tree document ⟨top :: stack, arenas, memo, error⟩ ⟨top.next :: stack, arenas, memo, error⟩
  | container {top : Frame} {stack : List Frame} {arenas : Arenas} {memo : MarginMemo} {error : Option LayoutError}
      {id : BoxId} {child : LayoutBox} (hc : top.blockChildren[top.nextChild]? = some id) (hg : tree.get id = some child)
      (hk : isBlockContainer tree id = true) :
      Advances Γ shape tree document ⟨top :: stack, arenas, memo, error⟩
        ⟨containerFrame arenas.fragments.length child (placeChild Γ tree id child.style top.next memo).1 :: top.next :: stack,
          arenas, (placeChild Γ tree id child.style top.next memo).2, error⟩
  | leaf {top : Frame} {stack : List Frame} {arenas arenas' : Arenas} {memo : MarginMemo}
      {error error' : Option LayoutError} {id : BoxId} {child : LayoutBox} {fragId : FragmentId} {usedHeight : Au}
      (hc : top.blockChildren[top.nextChild]? = some id) (hg : tree.get id = some child)
      (hk : isBlockContainer tree id = false)
      (hl : layoutLeaf Γ shape tree document child (placeChild Γ tree id child.style top.next memo).1 arenas error
        = ((fragId, usedHeight), arenas', error')) :
      Advances Γ shape tree document ⟨top :: stack, arenas, memo, error⟩
        ⟨top.next.childDone (placeChild Γ tree id child.style top.next memo).1.origin usedHeight
            (placeChild Γ tree id child.style top.next memo).1.effectiveMarginBottom fragId :: stack,
          arenas', (placeChild Γ tree id child.style top.next memo).2, error'⟩
  /-- All children of the top frame are done. -/
  | finish {top parent : Frame} {stack : List Frame} {arenas : Arenas} {memo : MarginMemo} {error : Option LayoutError}
      (hdone : top.blockChildren.length ≤ top.nextChild) :
      Advances Γ shape tree document ⟨top :: parent :: stack, arenas, memo, error⟩
        ⟨parent.childDone top.borderBoxOrigin top.finished.borderBoxSize.h top.effectiveMarginBottomForParent
            (top.finished.push Γ arenas).1 :: stack,
          (top.finished.push Γ arenas).2, memo, error⟩

variable {Γ : FloatOps} {shape : Shaper} {tree : BoxTree} {document : Document} {viewport : Size}

theorem advances_of_runStep {s s' : LayoutState} (h : runStep Γ shape tree document viewport s = .inl s') :
    Advances Γ shape tree document s s' := by
  obtain ⟨stack, arenas, memo, error⟩ := s
  cases stack with
  | nil => cases h
  | cons top stack =>
    simp only [runStep] at h
    split at h
    · rename_i hlt
      obtain rfl := Sum.inl.inj h
      have hc : top.blockChildren[top.nextChild]? = some top.blockChildren[top.nextChild] := List.getElem?_eq_getElem hlt
      simp only [advanceChild, hc]
      cases hg : tree.get top.blockChildren[top.nextChild] with
      | none => exact .missing hc hg
      | some child =>
        cases hk : isBlockContainer tree top.blockChildren[top.nextChild] with
        | true => exact .container hc hg hk
        | false => exact .leaf hc hg hk rfl
    · rename_i hge
      cases stack with
      | nil => cases h
      | cons parent stack =>
        obtain rfl := Sum.inl.inj h
        exact .finish (Nat.le_of_not_lt hge)

/-- The walk returns without a container, or when the root's container is the last one and all of its children are done. -/
theorem returns_of_runStep {s : LayoutState} {r : FragmentTree × Option LayoutError}
    (h : runStep Γ shape tree document viewport s = .inr r) :
    (s.stack = [] ∧ r = (emptyTree Γ s.arenas viewport, s.error)) ∨
      ∃ top, s.stack = [top] ∧ top.blockChildren.length ≤ top.nextChild ∧ finalizeTop Γ viewport top [] s = .inr r := by
  unfold runStep at h
  split at h
  · rename_i hstack
    exact .inl ⟨hstack, (Sum.inr.inj h).symm⟩
  · rename_i top stack hstack
    split at h
    · cases h
    · rename_i hge
      cases stack with
      | nil => exact .inr ⟨top, hstack, Nat.le_of_not_lt hge, h⟩
      | cons => cases h

/-- It returns with the first error of the shaper so far. -/
theorem error_of_runStep {s : LayoutState} {r : FragmentTree × Option LayoutError}
    (h : runStep Γ shape tree document viewport s = .inr r) : r.2 = s.error := by
  obtain ⟨-, rfl⟩ | ⟨top, -, -, htop⟩ := returns_of_runStep h
  · rfl
  · obtain rfl := Sum.inr.inj htop
    rfl

theorem Advances.runStep_eq {s s' : LayoutState} (h : Advances Γ shape tree document s s') (viewport : Size) :
    runStep Γ shape tree document viewport s = .inl s' := by
  cases h with
  | @missing top _ _ _ _ id hc hg =>
    have hlt := (List.getElem?_eq_some_iff.1 hc).1
    simp only [runStep, if_pos hlt, advanceChild, hc, hg, Frame.next]
  | @container top _ _ _ _ id child hc hg hk =>
    have hlt := (List.getElem?_eq_some_iff.1 hc).1
    simp only [runStep, if_pos hlt, advanceChild, hc, hg, hk, if_true, Frame.next]
  | @leaf top _ _ _ _ _ _ id child _ _ hc hg hk hl =>
    have hlt := (List.getElem?_eq_some_iff.1 hc).1
    simp only [Frame.next] at hl
    simp only [runStep, if_pos hlt, advanceChild, hc, hg, hk, Bool.false_eq_true, if_false, hl, Frame.next]
  | @finish top parent stack _ _ _ hdone => simp only [runStep, if_neg (Nat.not_lt.2 hdone), finalizeTop]

/-! ## Frames and boxes -/

/-- A frame has the data of a box, in the containing block layout gives that box. -/
structure FrameOf (Γ : FloatOps) (tree : BoxTree) (viewport : Size) (b : LayoutBox) (id : BoxId) (frame : Frame) :
    Prop where
  box : tree.get id = some b
  cb : ContainingBlock Γ tree viewport id frame.cbWidth frame.cbHeight
  container : isBlockContainer tree id = true
  style : frame.style = b.style
  node : frame.node = b.node
  anonymous : frame.isAnonymousBlock = isAnonymous b.kind
  children : frame.blockChildren = b.children
  padding : frame.padding = (resolveBoxModel Γ b.style frame.cbWidth frame.cbHeight).padding
  border : frame.border = (resolveBoxModel Γ b.style frame.cbWidth frame.cbHeight).border
  contentWidth : frame.contentWidth = (resolveBoxModel Γ b.style frame.cbWidth frame.cbHeight).contentWidth
  knownHeight : frame.knownHeight = (resolveBoxModel Γ b.style frame.cbWidth frame.cbHeight).knownHeight
  contentOrigin : frame.contentOrigin
    = contentOriginOf frame.borderBoxOrigin (resolveBoxModel Γ b.style frame.cbWidth frame.cbHeight)

variable {b : LayoutBox} {id : BoxId} {frame : Frame}

theorem FrameOf.next (h : FrameOf Γ tree viewport b id frame) : FrameOf Γ tree viewport b id frame.next :=
  ⟨h.box, h.cb, h.container, h.style, h.node, h.anonymous, h.children, h.padding, h.border, h.contentWidth, h.knownHeight,
    h.contentOrigin⟩

theorem FrameOf.childDone (h : FrameOf Γ tree viewport b id frame) (origin : Point) (usedHeight margin : Au)
    (fragId : FragmentId) : FrameOf Γ tree viewport b id (frame.childDone origin usedHeight margin fragId) :=
  ⟨h.box, h.cb, h.container, h.style, h.node, h.anonymous, h.children, h.padding, h.border, h.contentWidth, h.knownHeight,
    h.contentOrigin⟩

/-- The containing block of a child of a frame's box is the frame's content box. -/
theorem FrameOf.child (h : FrameOf Γ tree viewport b id frame) {c : BoxId} (hc : c ∈ frame.blockChildren) :
    ContainingBlock Γ tree viewport c frame.contentWidth frame.knownHeight := by
  rw [h.contentWidth, h.knownHeight]
  exact h.cb.child h.box (h.children ▸ hc)

/-- The children of a frame's box resolve. -/
theorem FrameOf.child_ne_none (h : FrameOf Γ tree viewport b id frame) (inv : tree.Invariant document) {c : BoxId}
    (hc : c ∈ frame.blockChildren) : tree.get c ≠ none := by
  obtain ⟨d, hd⟩ := (inv.resolves _ _ h.box _ (h.children ▸ hc)).2
  rw [hd]
  exact Option.some_ne_none d

/-! ## The stack -/

/-- The frames of a stack are those of a path of boxes down from the root, each the last visited child of the one below it
on the stack. -/
inductive Stacked (Γ : FloatOps) (tree : BoxTree) (viewport : Size) : List Frame → List BoxId → Prop where
  | root {frame : Frame} {b : LayoutBox} (hf : FrameOf Γ tree viewport b tree.root frame) :
      Stacked Γ tree viewport [frame] [tree.root]
  | push {child parent : Frame} {stack : List Frame} {c p : BoxId} {path : List BoxId} {b : LayoutBox} {k : Nat}
      (hs : Stacked Γ tree viewport (parent :: stack) (p :: path)) (hf : FrameOf Γ tree viewport b c child)
      (hk : parent.nextChild = k + 1) (hc : parent.blockChildren[k]? = some c)
      (heff : IsEffective Γ tree viewport bottomEdge c child.effectiveMarginBottomForParent) :
      Stacked Γ tree viewport (child :: parent :: stack) (c :: p :: path)

theorem Stacked.path_ne_nil {stack : List Frame} {path : List BoxId} (h : Stacked Γ tree viewport stack path) :
    ∃ id rest, path = id :: rest := by
  cases h with
  | root => exact ⟨_, _, rfl⟩
  | push => exact ⟨_, _, rfl⟩

theorem Stacked.frameOf {stack : List Frame} {path : List BoxId} (h : Stacked Γ tree viewport (frame :: stack) (id :: path)) :
    ∃ b, FrameOf Γ tree viewport b id frame := by
  cases h with
  | root hf => exact ⟨_, hf⟩
  | push _ hf => exact ⟨_, hf⟩

/-- What changes in the top frame while its children are placed does not matter to the frames below. -/
theorem Stacked.replace {stack : List Frame} {path : List BoxId} (h : Stacked Γ tree viewport (frame :: stack) (id :: path))
    (frame' : Frame) (hf : ∀ b, FrameOf Γ tree viewport b id frame → FrameOf Γ tree viewport b id frame')
    (he : frame'.effectiveMarginBottomForParent = frame.effectiveMarginBottomForParent) :
    Stacked Γ tree viewport (frame' :: stack) (id :: path) := by
  cases h with
  | root hf' => exact .root (hf _ hf')
  | push hs hf' hk hc heff => exact .push hs (hf _ hf') hk hc (he ▸ heff)

/-- A frame knows the effective bottom margin of the child before its next one. -/
def PrevGood (Γ : FloatOps) (tree : BoxTree) (viewport : Size) (frame : Frame) : Prop :=
  (frame.nextChild = 0 ∧ frame.prevMarginBottom = none) ∨
  ∃ k c v, frame.nextChild = k + 1 ∧ frame.blockChildren[k]? = some c ∧ frame.prevMarginBottom = some v ∧
    IsEffective Γ tree viewport bottomEdge c v

/-- Both memos have a value for a box that is not the root. -/
def Placed (tree : BoxTree) (memo : MarginMemo) (id : BoxId) : Prop :=
  id = tree.root ∨ ((lookup memo.top id).isSome ∧ (lookup memo.bottom id).isSome)

structure WalkInv (Γ : FloatOps) (tree : BoxTree) (viewport : Size) (path : List BoxId) (s : LayoutState) : Prop where
  stacked : Stacked Γ tree viewport s.stack path
  placed : ∀ id ∈ path, Placed tree s.memo id
  topMemo : MemoGood Γ tree viewport topEdge s.memo.top
  bottomMemo : MemoGood Γ tree viewport bottomEdge s.memo.bottom
  prev : ∀ frame ∈ s.stack.head?, PrevGood Γ tree viewport frame

/-! ## Placing a child -/

/-- Placing a child of the container of a frame: the effective margins used are those of the child's chains. -/
structure PlacedChild (Γ : FloatOps) (tree : BoxTree) (viewport : Size) (id : BoxId) (style : LayoutStyle) (parent : Frame)
    (memo : MarginMemo) (r : ChildPlacement × MarginMemo) : Prop where
  model : r.1.model = resolveBoxModel Γ style parent.contentWidth parent.knownHeight
  cb : ContainingBlock Γ tree viewport id r.1.cbWidth r.1.cbHeight
  cbWidth : r.1.cbWidth = parent.contentWidth
  cbHeight : r.1.cbHeight = parent.knownHeight
  top : ∃ effTop, IsEffective Γ tree viewport topEdge id effTop ∧
    effTop = (effectiveMarginTop Γ tree id style (resolveBoxModel Γ style parent.contentWidth parent.knownHeight) memo.top).1 ∧
    r.1.origin.y = (parent.contentOrigin.y.saturatingAdd parent.runningContentBottom).saturatingAdd
      (gapBefore parent effTop)
  bottom : IsEffective Γ tree viewport bottomEdge id r.1.effectiveMarginBottom
  topMemo : MemoGood Γ tree viewport topEdge r.2.top
  bottomMemo : MemoGood Γ tree viewport bottomEdge r.2.bottom
  placed : Placed tree r.2 id
  mono : ∀ z, Placed tree memo z → Placed tree r.2 z

theorem placeChild_spec (inv : tree.Invariant document) {p : BoxId} {parent : Frame} {memo : MarginMemo} {child : LayoutBox}
    (hf : FrameOf Γ tree viewport b p parent) (hc : id ∈ parent.blockChildren) (hg : tree.get id = some child)
    (hp : Placed tree memo p) (ht : MemoGood Γ tree viewport topEdge memo.top)
    (hb : MemoGood Γ tree viewport bottomEdge memo.bottom) :
    PlacedChild Γ tree viewport id child.style parent memo (placeChild Γ tree id child.style parent memo) := by
  have hcb := hf.child hc
  have hmem : id ∈ b.children := hf.children ▸ hc
  have hkid : id ∈ tree.kids p := BoxTree.mem_kids.2 ⟨b, hf.box, hmem⟩
  have hne := hf.cb.ne_root inv hf.box hmem
  obtain ⟨htop, htm, htid, htmono⟩ :=
    effectiveMargin_spec topEdge_lawful inv ht hg hcb hne hkid (hp.imp_right And.left)
  obtain ⟨hbot, hbm, hbid, hbmono⟩ :=
    effectiveMargin_spec bottomEdge_lawful inv hb hg hcb hne hkid (hp.imp_right And.right)
  exact
    { model := rfl
      cb := hcb
      cbWidth := rfl
      cbHeight := rfl
      top := ⟨_, htop, rfl, rfl⟩
      bottom := hbot
      topMemo := htm
      bottomMemo := hbm
      placed := .inr ⟨htid, hbid⟩
      mono := fun z hz => hz.imp_right fun h => ⟨htmono z h.1, hbmono z h.2⟩ }

/-! ## The invariant -/

theorem containerFrame_of {parent : Frame} {memo : MarginMemo} {child : LayoutBox} {r : ChildPlacement × MarginMemo}
    (h : PlacedChild Γ tree viewport id child.style parent memo r) (hg : tree.get id = some child)
    (hk : isBlockContainer tree id = true) (fragStart : Nat) :
    FrameOf Γ tree viewport child id (containerFrame fragStart child r.1) := by
  have hm : r.1.model = resolveBoxModel Γ child.style r.1.cbWidth r.1.cbHeight := by
    rw [h.model, h.cbWidth, h.cbHeight]
  exact
    { box := hg
      cb := h.cb
      container := hk
      style := rfl
      node := rfl
      anonymous := rfl
      children := rfl
      padding := congrArg BoxModel.padding hm
      border := congrArg BoxModel.border hm
      contentWidth := congrArg BoxModel.contentWidth hm
      knownHeight := congrArg BoxModel.knownHeight hm
      contentOrigin := congrArg (contentOriginOf r.1.origin) hm }

/-- Every iteration keeps the invariant. -/
theorem WalkInv.step (inv : tree.Invariant document) {path : List BoxId} {s s' : LayoutState}
    (h : WalkInv Γ tree viewport path s) (hs : Advances Γ shape tree document s s') :
    ∃ path', WalkInv Γ tree viewport path' s' := by
  obtain ⟨hst, hplaced, htop, hbottom, hprev⟩ := h
  obtain ⟨p, path, rfl⟩ := hst.path_ne_nil
  cases hs with
  | missing hc hg =>
    obtain ⟨b, hf⟩ := hst.frameOf
    exact absurd hg (hf.child_ne_none inv (List.mem_of_getElem? hc))
  | @container top _ _ _ _ id child hc hg hk =>
    obtain ⟨b, hf⟩ := hst.frameOf
    have hr := placeChild_spec inv hf.next (List.mem_of_getElem? hc) hg (hplaced p List.mem_cons_self) htop hbottom
    have hst' := hst.replace top.next (fun _ h => h.next) rfl
    refine ⟨id :: p :: path, .push hst' (containerFrame_of hr hg hk _) rfl hc hr.bottom, ?_, hr.topMemo, hr.bottomMemo, ?_⟩
    · rintro z hz
      rcases List.mem_cons.1 hz with rfl | hz
      · exact hr.placed
      · exact hr.mono z (hplaced z hz)
    · rintro _ ⟨⟩
      exact .inl ⟨rfl, rfl⟩
  | @leaf top _ _ _ _ _ _ id child _ _ hc hg hk hl =>
    obtain ⟨b, hf⟩ := hst.frameOf
    have hr := placeChild_spec inv hf.next (List.mem_of_getElem? hc) hg (hplaced p List.mem_cons_self) htop hbottom
    refine ⟨p :: path, hst.replace _ (fun _ h => h.next.childDone _ _ _ _) rfl, ?_, hr.topMemo, hr.bottomMemo, ?_⟩
    · exact fun z hz => hr.mono z (hplaced z hz)
    · rintro _ ⟨⟩
      exact .inr ⟨top.nextChild, id, _, rfl, hc, rfl, hr.bottom⟩
  | @finish top parent _ _ _ _ hdone =>
    cases hst with
    | @push _ _ _ _ q path _ k hs hf hk hc heff =>
      refine ⟨q :: path, hs.replace _ (fun _ h => h.childDone _ _ _ _) rfl, ?_, htop, hbottom, ?_⟩
      · exact fun z hz => hplaced z (List.mem_cons_of_mem _ hz)
      · rintro _ ⟨⟩
        exact .inr ⟨k, p, _, hk, hc, rfl, heff⟩

/-- The walk of a tree starts in a state that has the invariant. -/
theorem WalkInv.start {root : LayoutBox} (hg : tree.get tree.root = some root)
    (hk : isBlockContainer tree tree.root = true) :
    WalkInv Γ tree viewport [tree.root]
      (startState tree viewport root (resolveBoxModel Γ root.style viewport.w (some viewport.h))) where
  stacked := .root (b := root)
    { box := hg
      cb := .root
      container := hk
      style := rfl
      node := rfl
      anonymous := rfl
      children := rfl
      padding := rfl
      border := rfl
      contentWidth := rfl
      knownHeight := rfl
      contentOrigin := rfl }
  placed id hid := .inl (List.mem_singleton.1 hid)
  topMemo := memoGood_new
  bottomMemo := memoGood_new
  prev := by
    rintro _ ⟨⟩
    exact .inl ⟨rfl, rfl⟩

/-- Every state of the walk has the invariant. -/
theorem walkInv_of_steps (inv : tree.Invariant document) {root : LayoutBox} (hg : tree.get tree.root = some root)
    (hk : isBlockContainer tree tree.root = true) {s : LayoutState}
    (hs : While.Steps (runStep Γ shape tree document viewport)
      (startState tree viewport root (resolveBoxModel Γ root.style viewport.w (some viewport.h))) s) :
    ∃ path, WalkInv Γ tree viewport path s :=
  hs.invariant (I := fun s => ∃ path, WalkInv Γ tree viewport path s)
    (fun _ _ ⟨_, h⟩ hb => h.step inv (advances_of_runStep hb)) ⟨_, WalkInv.start hg hk⟩

end Block

end ChromeLight
