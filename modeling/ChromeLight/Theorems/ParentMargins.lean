import ChromeLight.Lemmas.Adjoining
import ChromeLight.Theorems.Margins

/-!
# Margins of parents and children

The memo of the effective margins does not show: every value the walk is given is the collapsed value of the adjoining
margins, as if there were no memo (`effectiveMargins_unmemoized`). And the walk uses these values in one place each
(`margins_once`): a child's margin that its parent's effective margin has in it already leaves no gap inside the parent, one
that it has not leaves its whole gap there.
-/

namespace ChromeLight

namespace Block

variable {Γ : FloatOps} {shape : Shaper} {tree : BoxTree} {document : Document} {viewport : Size}

/-- In a state of the walk, the child of the top frame's container that the next iteration places. -/
structure NextChild (tree : BoxTree) (s : LayoutState) (top : Frame) (c : BoxId) (child : LayoutBox) : Prop where
  frame : s.stack.head? = some top
  next : top.blockChildren[top.nextChild]? = some c
  box : tree.get c = some child

/-- The effective top margin placing the next child is given. -/
def givenTop (Γ : FloatOps) (tree : BoxTree) (s : LayoutState) (top : Frame) (c : BoxId) (child : LayoutBox) : Au :=
  (effectiveMarginTop Γ tree c child.style (resolveBoxModel Γ child.style top.contentWidth top.knownHeight) s.memo.top).1

/-- The effective bottom margin placing the next child is given. -/
def givenBottom (Γ : FloatOps) (tree : BoxTree) (s : LayoutState) (top : Frame) (c : BoxId) (child : LayoutBox) : Au :=
  (effectiveMarginBottom Γ tree c child.style (resolveBoxModel Γ child.style top.contentWidth top.knownHeight)
    s.memo.bottom).1

/-- A value is the greatest positive of the margins that adjoin at an edge of a box plus the least negative one. -/
def Unmemoized (Γ : FloatOps) (tree : BoxTree) (viewport : Size) (edge : Edge) (c : BoxId) (v : Au) : Prop :=
  ∃ links, (∀ l, Adjoining Γ tree viewport edge c l ↔ l = links) ∧
    v.units = Extent.greatest (unitsOf (links.map Prod.snd)) + Extent.least (unitsOf (links.map Prod.snd))

theorem IsEffective.unmemoized {edge : Edge} (law : edge.Lawful Γ) (inv : tree.Invariant document) {c : BoxId}
    {child : LayoutBox} {v : Au} (hc : tree.get c = some child) (hv : IsEffective Γ tree viewport edge c v) :
    Unmemoized Γ tree viewport edge c v := by
  obtain ⟨links, hlinks, hcollapse⟩ := hv.collapse_links law inv hc
  refine ⟨links, fun l => ⟨fun hl => hl.unique inv hlinks, ?_⟩, hcollapse⟩
  rintro rfl
  exact hlinks

/-! ## Every value the walk is given -/

/-- In every state of the walk, the effective margins of the next child are those without the memo, in the containing block
the child is placed in. -/
theorem effectiveMargins_unmemoized (Γ : FloatOps) (shape : Shaper) (viewport : Size) (inv : tree.Invariant document)
    {s : LayoutState} (hs : Reaches Γ shape tree document viewport s) {top : Frame} {c : BoxId} {child : LayoutBox}
    (hn : NextChild tree s top c child) :
    ContainingBlock Γ tree viewport c top.contentWidth top.knownHeight ∧
      Unmemoized Γ tree viewport topEdge c (givenTop Γ tree s top c child) ∧
      Unmemoized Γ tree viewport bottomEdge c (givenBottom Γ tree s top c child) := by
  obtain ⟨root, hroot, hk, hsteps⟩ := hs
  obtain ⟨path, hw⟩ := walkInv_of_steps inv hroot hk hsteps
  obtain ⟨hhead, hnext, hg⟩ := hn
  obtain ⟨stack, arenas, memo, error⟩ := s
  obtain ⟨rest, rfl⟩ := List.head?_eq_some_iff.1 hhead
  obtain ⟨p, path, rfl⟩ := hw.stacked.path_ne_nil
  obtain ⟨b, hf⟩ := hw.stacked.frameOf
  have hmem := List.mem_of_getElem? hnext
  have hr := placeChild_spec inv hf hmem hg (hw.placed p List.mem_cons_self) hw.topMemo hw.bottomMemo
  obtain ⟨effTop, heff, rfl, -⟩ := hr.top
  exact ⟨hf.child hmem, heff.unmemoized topEdge_lawful inv hg, hr.bottom.unmemoized bottomEdge_lawful inv hg⟩

theorem reaches_mixedStart : Reaches .sample noText mixedTree mixedMargins.document window mixedStart :=
  ⟨_, rfl, by decide, While.Steps.refl _⟩

/-- The state in which the first block is entered: the margins of its chains are in the memo. -/
def mixedInside : LayoutState :=
  (While.after (runStep .sample noText mixedTree mixedMargins.document window) 1 mixedStart).getD mixedStart

theorem reaches_mixedInside : Reaches .sample noText mixedTree mixedMargins.document window mixedInside :=
  ⟨_, rfl, by decide, While.Steps.of_after (n := 1) rfl⟩

/-- The theorem at the first block of the mixed margins, whose bottom chain has two links, and then at its child, whose bottom
margin is taken from the memo. -/
theorem effectiveMargins_unmemoized_mixed :
    (chainMargins .sample mixedTree bottomEdge ⟨1⟩ (mixedStart.stack.headD mixedTop).contentWidth
        (mixedStart.stack.headD mixedTop).knownHeight = [.fromPx (-5), .fromPx 10] ∧
      Unmemoized .sample mixedTree window topEdge ⟨1⟩ (givenTop .sample mixedTree mixedStart
        (mixedStart.stack.headD mixedTop) ⟨1⟩ ⟨some (.fromIndex 2), .block, marginStyle 0 (-5), [⟨0⟩]⟩) ∧
      Unmemoized .sample mixedTree window bottomEdge ⟨1⟩ (givenBottom .sample mixedTree mixedStart
        (mixedStart.stack.headD mixedTop) ⟨1⟩ ⟨some (.fromIndex 2), .block, marginStyle 0 (-5), [⟨0⟩]⟩)) ∧
    mixedInside.memo.bottom[0]? = some (some (.fromPx 10)) ∧
      Unmemoized .sample mixedTree window bottomEdge ⟨0⟩ (givenBottom .sample mixedTree mixedInside
        (mixedInside.stack.headD mixedTop) ⟨0⟩
        ⟨some (.fromIndex 3), .block, { marginStyle 0 10 with height := .px (.fromPx 20) }, []⟩) := by
  have inv := BoxGen.invariant_of_build build_mixedMargins
  obtain ⟨-, htop, hbottom⟩ := effectiveMargins_unmemoized .sample noText window inv reaches_mixedStart
    (show NextChild mixedTree mixedStart (mixedStart.stack.headD mixedTop) ⟨1⟩ _ from ⟨rfl, rfl, rfl⟩)
  obtain ⟨-, -, hinner⟩ := effectiveMargins_unmemoized .sample noText window inv reaches_mixedInside
    (show NextChild mixedTree mixedInside (mixedInside.stack.headD mixedTop) ⟨0⟩ _ from ⟨rfl, rfl, rfl⟩)
  exact ⟨⟨by decide +kernel, htop, hbottom⟩, by decide +kernel, hinner⟩

/-! ## Every margin once -/

/-- A box that box generation may make a container of blocks. -/
structure BlockContainer (tree : BoxTree) (p : BoxId) (b : LayoutBox) : Prop where
  box : tree.get p = some b
  kind : b.kind ≠ .anonymousInline

/-- The top frame's box is the one its children have as their parent, and it is the root exactly if the frame is the only
one. -/
theorem topFrame_box (inv : tree.Invariant document) {top : Frame} {rest : List Frame} {path : List BoxId}
    (h : Stacked Γ tree viewport (top :: rest) path) {p c : BoxId} {b : LayoutBox} (hb : tree.get p = some b)
    (hc : c ∈ b.children) (hmem : c ∈ top.blockChildren) :
    FrameOf Γ tree viewport b p top ∧ (rest.isEmpty = true ↔ p = tree.root) := by
  cases h with
  | root hf =>
    obtain rfl := inv.uniqueParents.parent _ _ _ (BoxTree.mem_kids.2 ⟨_, hf.box, hf.children ▸ hmem⟩)
      (BoxTree.mem_kids.2 ⟨b, hb, hc⟩)
    obtain rfl := Option.some.inj (hb.symm.trans hf.box)
    exact ⟨hf, by simp⟩
  | push hs hf hk hq =>
    obtain rfl := inv.uniqueParents.parent _ _ _ (BoxTree.mem_kids.2 ⟨_, hf.box, hf.children ▸ hmem⟩)
      (BoxTree.mem_kids.2 ⟨b, hb, hc⟩)
    obtain rfl := Option.some.inj (hb.symm.trans hf.box)
    obtain ⟨pb, hparent⟩ := hs.frameOf
    have hne := hparent.cb.ne_root inv hparent.box (hparent.children ▸ List.mem_of_getElem? hq)
    exact ⟨hf, by simp [hne]⟩

/-- The flags of the top frame say whether the chains of its box go on to its children. -/
theorem flags_iff_included (inv : tree.Invariant document) {top : Frame} {rest : List Frame} {p : BoxId} {b : LayoutBox}
    (hf : FrameOf Γ tree viewport b p top) (hroot : rest.isEmpty = true ↔ p = tree.root)
    (he : FrameEdges Γ rest.isEmpty top) :
    (∀ c, firstBlockChild tree p = some c →
      (top.firstChildCollapseEligible = true ↔ Included Γ tree viewport topEdge p c)) ∧
    ∀ c, lastBlockChild tree p = some c → (top.bottomCollapseEligible = true ↔ Included Γ tree viewport bottomEdge p c) := by
  have hne : (!rest.isEmpty) = true ↔ p ≠ tree.root := by
    rw [Bool.not_eq_true', ← Bool.not_eq_true, hroot]
  constructor
  · intro c hc
    rw [included_iff topEdge_lawful inv hf.box hf.cb hc, he.top, Bool.and_eq_true, hne, Frame.model, hf.style]
  · intro c hc
    rw [included_iff bottomEdge_lawful inv hf.box hf.cb hc, he.bottom, Bool.and_eq_true, hne, Frame.model, hf.style]

/-- A frame that none of its children is done in has no margin and no content before the next one. -/
theorem first_of_invariants {top : Frame} {arenas : Arenas} (hprev : PrevGood Γ tree viewport top)
    (hplaced : LastPlaced Γ tree top arenas) (hzero : top.nextChild = 0) :
    top.prevMarginBottom = none ∧ top.runningContentBottom = .zero := by
  constructor
  · rcases hprev with ⟨-, h⟩ | ⟨k, _, _, hk, -⟩
    · exact h
    · omega
  · rcases hplaced with ⟨-, h⟩ | ⟨k, _, _, hk, -⟩
    · exact h
    · omega

/-- A frame that all its children are done in ends where the last one does, and has that one's effective bottom margin. -/
theorem last_of_invariants {top : Frame} {arenas : Arenas} {c : BoxId} (hprev : PrevGood Γ tree viewport top)
    (hplaced : LastPlaced Γ tree top arenas) (hdone : top.blockChildren.length ≤ top.nextChild)
    (hlast : top.blockChildren.getLast? = some c) :
    (∃ done, LastChild Γ tree top arenas c done ∧ top.runningContentBottom = done.bottomIn top) ∧
      ∃ v, top.prevMarginBottom = some v ∧ IsEffective Γ tree viewport bottomEdge c v := by
  have hpos := List.length_pos_of_mem (List.mem_of_getLast? hlast)
  -- the child before the next one is the last
  have last_of : ∀ {k : Nat} {c' : BoxId}, top.nextChild = k + 1 → top.blockChildren[k]? = some c' → c' = c := by
    intro k c' hk hc'
    have hlt := (List.getElem?_eq_some_iff.1 hc').1
    rw [List.getLast?_eq_getElem?, show top.blockChildren.length - 1 = k by omega, hc'] at hlast
    exact Option.some.inj hlast
  constructor
  · rcases hplaced with ⟨h0, -⟩ | ⟨k, c', done, hk, hc', hchild, hrunning⟩
    · omega
    · obtain rfl := last_of hk hc'
      exact ⟨done, hchild, hrunning⟩
  · rcases hprev with ⟨h0, -⟩ | ⟨k, c', v, hk, hc', hv, heff⟩
    · omega
    · obtain rfl := last_of hk hc'
      exact ⟨v, hv, heff⟩

/-- Between a container and its first and last children, every margin is counted once. -/
structure MarginsOnce (Γ : FloatOps) (shape : Shaper) (tree : BoxTree) (document : Document) (viewport : Size) : Prop where
  /-- Below the top of a container's content box the first child leaves no gap, if the container's effective top margin has
  the child's in it, and the child's effective top margin if not. -/
  first : ∀ s, Reaches Γ shape tree document viewport s → ∀ top c child, NextChild tree s top c child → top.nextChild = 0 →
    ∀ p b, BlockContainer tree p b → c ∈ b.children → ∃ gap,
      (placeChild Γ tree c child.style top s.memo).1.origin.y = top.contentOrigin.y.saturatingAdd gap ∧
      (Included Γ tree viewport topEdge p c → gap = .zero) ∧
      (¬Included Γ tree viewport topEdge p c → Unmemoized Γ tree viewport topEdge c gap)
  /-- A container of automatic height ends, before its height is clamped, where its last child ends, if the container's
  effective bottom margin has the child's in it, and the child's effective bottom margin below that if not. -/
  last : ∀ s, Reaches Γ shape tree document viewport s → ∀ top c, s.stack.head? = some top →
    top.blockChildren.length ≤ top.nextChild → top.blockChildren.getLast? = some c → top.knownHeight = none →
    ∀ p b, BlockContainer tree p b → c ∈ b.children → ∃ done trailing, LastChild Γ tree top s.arenas c done ∧
      top.contentHeight = clampAu ((done.bottomIn top).saturatingAdd trailing) top.minHeight top.maxHeight ∧
      (Included Γ tree viewport bottomEdge p c → trailing = .zero) ∧
      (¬Included Γ tree viewport bottomEdge p c → Unmemoized Γ tree viewport bottomEdge c trailing)
  /-- Nothing is included in margins of the root. -/
  root : ∀ edge c, ¬Included Γ tree viewport edge tree.root c

/-- Every margin is counted once, in the layout of every tree. -/
theorem margins_once (Γ : FloatOps) (shape : Shaper) (viewport : Size) (inv : tree.Invariant document) :
    MarginsOnce Γ shape tree document viewport where
  first := by
    intro s hs top c child hn hzero p b hp hc
    obtain ⟨-, htop, -⟩ := effectiveMargins_unmemoized Γ shape viewport inv hs hn
    obtain ⟨root, hroot, hk, hsteps⟩ := hs
    obtain ⟨path, hw, he⟩ := edgeInv_of_steps inv hroot hk hsteps
    obtain ⟨hhead, hnext, hg⟩ := hn
    obtain ⟨stack, arenas, memo, error⟩ := s
    obtain ⟨rest, rfl⟩ := List.head?_eq_some_iff.1 hhead
    obtain ⟨hf, hbottom⟩ := topFrame_box inv hw.stacked hp.box hc (List.mem_of_getElem? hnext)
    have hfirst : firstBlockChild tree p = some c := by
      refine firstBlockChild_of_container inv hp.box hp.kind hf.container ?_
      rw [List.head?_eq_getElem?, ← hf.children, ← hzero]
      exact hnext
    have hflag := (flags_iff_included inv hf hbottom he.edges.1).1 c hfirst
    obtain ⟨hprev, hrunning⟩ := first_of_invariants (hw.prev top rfl) (he.last top rfl) hzero
    refine ⟨gapBefore top (givenTop Γ tree ⟨top :: rest, arenas, memo, error⟩ top c child), ?_, ?_, ?_⟩
    · simp only [placeChild, hrunning, Au.saturatingAdd_zero]
      rfl
    · intro hin
      simp only [gapBefore, hprev, if_pos (hflag.2 hin)]
    · intro hout
      simp only [gapBefore, hprev, if_neg fun h => hout (hflag.1 h)]
      exact htop
  last := by
    intro s hs top c hhead hdone hlast hauto p b hp hc
    obtain ⟨root, hroot, hk, hsteps⟩ := hs
    obtain ⟨path, hw, he⟩ := edgeInv_of_steps inv hroot hk hsteps
    obtain ⟨stack, arenas, memo, error⟩ := s
    obtain ⟨rest, rfl⟩ := List.head?_eq_some_iff.1 hhead
    obtain ⟨hf, hbottom⟩ := topFrame_box inv hw.stacked hp.box hc (List.mem_of_getLast? hlast)
    have hflag := (flags_iff_included inv hf hbottom he.edges.1).2 c
      (lastBlockChild_of_container inv hp.box hp.kind hf.container (hf.children ▸ hlast))
    obtain ⟨⟨done, hchild, hrunning⟩, v, hprev, heff⟩ :=
      last_of_invariants (hw.prev top rfl) (he.last top rfl) hdone hlast
    obtain ⟨d, hd, -⟩ := hchild.box
    refine ⟨done, if top.bottomCollapseEligible then .zero else v, hchild, ?_, ?_, ?_⟩
    · simp only [Frame.contentHeight, hauto, hprev, hrunning, Option.getD_some]
    · intro hin
      rw [if_pos (hflag.2 hin)]
    · intro hout
      rw [if_neg fun h => hout (hflag.1 h)]
      exact heff.unmemoized bottomEdge_lawful inv hd
  root edge c h := h.1 rfl

/-- The state in which both blocks are done. -/
def mixedEnd : LayoutState :=
  (While.after (runStep .sample noText mixedTree mixedMargins.document window) 4 mixedStart).getD mixedStart

theorem reaches_mixedEnd : Reaches .sample noText mixedTree mixedMargins.document window mixedEnd := by
  refine ⟨_, rfl, by decide, While.Steps.of_after (n := 4) ?_⟩
  obtain ⟨s, hs⟩ := Option.isSome_iff_exists.1 (show
    (While.after (runStep .sample noText mixedTree mixedMargins.document window) 4 mixedStart).isSome = true by decide +kernel)
  unfold mixedEnd
  rw [hs]
  exact hs

/-- The theorem at the first and the last child of the document with the mixed margins, both inside the root. -/
theorem margins_once_mixed :
    (∃ gap, (placeChild .sample mixedTree ⟨1⟩ (marginStyle 0 (-5)) (mixedStart.stack.headD mixedTop) mixedStart.memo).1.origin.y
        = (mixedStart.stack.headD mixedTop).contentOrigin.y.saturatingAdd gap ∧
      Unmemoized .sample mixedTree window topEdge ⟨1⟩ gap) ∧
    ∃ done trailing, LastChild .sample mixedTree (mixedEnd.stack.headD mixedTop) mixedEnd.arenas ⟨2⟩ done ∧
      (mixedEnd.stack.headD mixedTop).contentHeight = clampAu
        ((done.bottomIn (mixedEnd.stack.headD mixedTop)).saturatingAdd trailing)
        (mixedEnd.stack.headD mixedTop).minHeight (mixedEnd.stack.headD mixedTop).maxHeight ∧
      Unmemoized .sample mixedTree window bottomEdge ⟨2⟩ trailing := by
  have once : MarginsOnce .sample noText mixedTree mixedMargins.document window :=
    margins_once .sample noText window (BoxGen.invariant_of_build build_mixedMargins)
  have hroot : BlockContainer mixedTree ⟨3⟩ ⟨some (.fromIndex 1), .block, marginStyle 0 0, [⟨1⟩, ⟨2⟩]⟩ := ⟨rfl, nofun⟩
  obtain ⟨gap, hgap, -, hout⟩ := once.first mixedStart reaches_mixedStart (mixedStart.stack.headD mixedTop) ⟨1⟩
    ⟨some (.fromIndex 2), .block, marginStyle 0 (-5), [⟨0⟩]⟩ ⟨rfl, rfl, rfl⟩ rfl ⟨3⟩ _ hroot List.mem_cons_self
  obtain ⟨done, trailing, hdone, hheight, -, hbelow⟩ := once.last mixedEnd reaches_mixedEnd
    (mixedEnd.stack.headD mixedTop) ⟨2⟩ (by decide +kernel) (by decide +kernel) (by decide +kernel) (by decide +kernel) ⟨3⟩ _ hroot
    (List.mem_cons_of_mem _ List.mem_cons_self)
  exact ⟨⟨gap, hgap, hout (once.root _ _)⟩, done, trailing, hdone, hheight, hbelow (once.root _ _)⟩

end Block

end ChromeLight
