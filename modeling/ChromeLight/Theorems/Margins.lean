import ChromeLight.Lemmas.Adjoining

/-!
# Sibling margins

The gap the layout walk leaves between the border boxes of two consecutive children of a block container is computed from two
numbers, the collapsed margins of the first child's chain of last children and of the second child's chain of first children.
These two are right in every state of the walk (`walkInv_of_steps`), and the gap is added where the fragment of the first child
ends (`edgeInv_of_steps`). But the margins of both chains adjoin, and collapsing them two numbers at a time is not collapsing
them as one set. `sibling_gap_iff` says exactly when it is.
-/

namespace ChromeLight

namespace Block

variable {Γ : FloatOps} {shape : Shaper} {tree : BoxTree} {document : Document} {viewport : Size}

/-- The layout walk of a tree reaches a state. -/
def Reaches (Γ : FloatOps) (shape : Shaper) (tree : BoxTree) (document : Document) (viewport : Size) (s : LayoutState) :
    Prop :=
  ∃ root, tree.get tree.root = some root ∧ isBlockContainer tree tree.root = true ∧
    While.Steps (runStep Γ shape tree document viewport)
      (startState tree viewport root (resolveBoxModel Γ root.style viewport.w (some viewport.h))) s

/-- In a state of the walk, the top frame is that of a container whose child `a` is placed and whose child `c` is next. -/
structure Between (tree : BoxTree) (s : LayoutState) (top : Frame) (a c : BoxId) (child : LayoutBox) : Prop where
  frame : s.stack.head? = some top
  placed : ∃ k, top.nextChild = k + 1 ∧ top.blockChildren[k]? = some a ∧ top.blockChildren[k + 1]? = some c
  next : tree.get c = some child

/-- The gap that placing the next child leaves below the border box of the last one, as finished. -/
def siblingGap (Γ : FloatOps) (tree : BoxTree) (s : LayoutState) (top : Frame) (last : Finished) (c : BoxId) (child : LayoutBox) :
    Int :=
  (placeChild Γ tree c child.style top s.memo).1.origin.y.units - (last.origin.y.units + last.borderBoxSize.h.units)

/-- Nothing saturates between the two border boxes: neither the place and the bottom of the last child, in the container or on
the page, nor the place of the next one. -/
structure GapFits (Γ : FloatOps) (tree : BoxTree) (s : LayoutState) (top : Frame) (last : Finished) (c : BoxId)
    (child : LayoutBox) : Prop where
  offset : Au.IsI32 (last.origin.y.units - top.contentOrigin.y.units)
  extent : Au.IsI32 (last.origin.y.units - top.contentOrigin.y.units + last.borderBoxSize.h.units)
  bottom : Au.IsI32 (last.origin.y.units + last.borderBoxSize.h.units)
  gap : Au.IsI32 (last.origin.y.units + last.borderBoxSize.h.units +
    (gapBefore top (effectiveMarginTop Γ tree c child.style
      (resolveBoxModel Γ child.style top.contentWidth top.knownHeight) s.memo.top).1).units)

/-- The bottom margins of the chain of last children of a child of a frame's container. -/
def bottomMargins (Γ : FloatOps) (tree : BoxTree) (top : Frame) (a : BoxId) : List Int :=
  unitsOf (chainMargins Γ tree bottomEdge a top.contentWidth top.knownHeight)

/-- The top margins of the chain of first children of a child of a frame's container. -/
def topMargins (Γ : FloatOps) (tree : BoxTree) (top : Frame) (c : BoxId) : List Int :=
  unitsOf (chainMargins Γ tree topEdge c top.contentWidth top.knownHeight)

theorem unitsOf_pair (a b : Au) : unitsOf [a, b] = [a.units, b.units] := rfl

/-- The last child placed is the one before the next child, and the frame's content ends where its border box does. -/
theorem lastChild_of_between {path : List BoxId} {s : LayoutState} (hw : WalkInv Γ tree viewport path s) (he : EdgeInv Γ tree s)
    {top : Frame} {a c : BoxId} {child : LayoutBox} (hb : Between tree s top a c child) :
    (∃ last, LastChild Γ tree top s.arenas a last ∧ top.runningContentBottom = last.bottomIn top) ∧
      ∃ prev, top.prevMarginBottom = some prev ∧ IsEffective Γ tree viewport bottomEdge a prev := by
  obtain ⟨hhead, ⟨k, hnext, ha, -⟩, -⟩ := hb
  constructor
  · rcases he.last top hhead with ⟨h0, -⟩ | ⟨k', a', last, hk', ha', hlast, hrunning⟩
    · omega
    · obtain rfl : k' = k := by omega
      obtain rfl := Option.some.inj (ha'.symm.trans ha)
      exact ⟨last, hlast, hrunning⟩
  · rcases hw.prev top hhead with ⟨h0, -⟩ | ⟨k', a', v, hk', ha', hv, hvEff⟩
    · omega
    · obtain rfl : k' = k := by omega
      obtain rfl := Option.some.inj (ha'.symm.trans ha)
      exact ⟨v, hv, hvEff⟩

/-- Between two children the gap is the collapsed value of the two chains' collapsed values. -/
theorem siblingGap_eq (inv : tree.Invariant document) {s : LayoutState} (hs : Reaches Γ shape tree document viewport s)
    {top : Frame} {a c : BoxId} {child : LayoutBox} (hb : Between tree s top a c child) :
    ∃ last, LastChild Γ tree top s.arenas a last ∧ (GapFits Γ tree s top last c child →
      siblingGap Γ tree s top last c child = Extent.collapse
        [Extent.collapse (bottomMargins Γ tree top a), Extent.collapse (topMargins Γ tree top c)]) := by
  obtain ⟨root, hroot, hk, hsteps⟩ := hs
  obtain ⟨path, hinv, hedges⟩ := edgeInv_of_steps inv hroot hk hsteps
  obtain ⟨⟨last, hlast, hrunning⟩, prev, hprev, hprevEff⟩ := lastChild_of_between hinv hedges hb
  refine ⟨last, hlast, ?_⟩
  rintro ⟨hoffset, hextent, hbottom, hfit⟩
  obtain ⟨hhead, ⟨k, hnext, ha, hc⟩, hg⟩ := hb
  obtain ⟨stack, arenas, memo, error⟩ := s
  obtain ⟨rest, rfl⟩ := List.head?_eq_some_iff.1 hhead
  obtain ⟨p, path, rfl⟩ := hinv.stacked.path_ne_nil
  obtain ⟨b, hf⟩ := hinv.stacked.frameOf
  have hr := placeChild_spec inv hf (List.mem_of_getElem? hc) hg (hinv.placed p List.mem_cons_self) hinv.topMemo
    hinv.bottomMemo
  obtain ⟨effTop, heff, hdef, horigin⟩ := hr.top
  have chain : ∀ {edge : Edge} {id : BoxId} {v : Au}, id ∈ top.blockChildren → IsEffective Γ tree viewport edge id v →
      v.units = Extent.collapse (unitsOf (chainMargins Γ tree edge id top.contentWidth top.knownHeight)) := by
    rintro edge id v hid ⟨w, h, hcb, rfl⟩
    obtain ⟨rfl, rfl⟩ := hcb.unique inv (hf.child hid)
    exact units_collapseMarginSet _
  have hgap : (gapBefore top effTop).units = Extent.collapse
      [Extent.collapse (bottomMargins Γ tree top a), Extent.collapse (topMargins Γ tree top c)] := by
    have hpair : gapBefore top effTop = collapseMargins prev effTop := by
      unfold gapBefore
      rw [hprev]
    rw [hpair, collapseMargins, units_collapseMarginSet, unitsOf_pair, chain (List.mem_of_getElem? ha) hprevEff,
      chain (List.mem_of_getElem? hc) heff, bottomMargins, topMargins]
  -- without saturation the content ends, on the page, where the border box of the last child does
  have hend : (top.contentOrigin.y.saturatingAdd top.runningContentBottom).units =
      last.origin.y.units + last.borderBoxSize.h.units := by
    rw [hrunning, Finished.bottomIn]
    simp only [Au.units_saturatingAdd, Au.units_saturatingSub]
    unfold Au.IsI32 at hoffset hextent hbottom
    omega
  rw [← hdef, hgap] at hfit
  unfold siblingGap
  rw [horigin, Au.units_saturatingAdd, hend, hgap]
  unfold Au.IsI32 at hfit
  omega

/-- The gap between the border boxes of two consecutive children is that of all margins of the two chains together exactly if
the two chains are compatible. -/
theorem sibling_gap_iff (Γ : FloatOps) (shape : Shaper) {tree : BoxTree} {document : Document} (viewport : Size)
    (inv : tree.Invariant document) {s : LayoutState} (hs : Reaches Γ shape tree document viewport s) {top : Frame}
    {a c : BoxId} {child : LayoutBox} (hb : Between tree s top a c child) :
    ∃ last, LastChild Γ tree top s.arenas a last ∧ (GapFits Γ tree s top last c child →
      (siblingGap Γ tree s top last c child = Extent.collapse (bottomMargins Γ tree top a ++ topMargins Γ tree top c) ↔
        Extent.Compatible (bottomMargins Γ tree top a) (topMargins Γ tree top c))) := by
  obtain ⟨last, hlast, hgap⟩ := siblingGap_eq inv hs hb
  refine ⟨last, hlast, fun hfit => ?_⟩
  rw [hgap hfit]
  exact Extent.collapse_pair_eq_iff _ _

/-! ## A document in which the gap is too large -/

/-- A block with those top and bottom margins, in pixels. -/
def marginStyle (top bottom : Int) : LayoutStyle :=
  { LayoutStyle.initial .sample with
    display := .block
    margin := { top := .px (.fromPx top), right := .px .zero, bottom := .px (.fromPx bottom), left := .px .zero } }

/-- `html` with two blocks: one with a bottom margin of -5 pixels around one with 10 and a height of 20, and one with a top margin
of 8. -/
def mixedMargins : StyledDocument :=
  .ofOps (appendElement 0 1 "html" ++ appendElement 1 2 "div" ++ appendElement 2 3 "div" ++ appendElement 1 4 "div")
    fun id => match id.index with
      | 2 => some (marginStyle 0 (-5))
      | 3 => some { marginStyle 0 10 with height := .px (.fromPx 20) }
      | 4 => some (marginStyle 8 0)
      | _ => some (marginStyle 0 0)

/-- Its box tree. -/
def mixedTree : BoxTree where
  boxes :=
    [⟨some (.fromIndex 3), .block, { marginStyle 0 10 with height := .px (.fromPx 20) }, []⟩,
      ⟨some (.fromIndex 2), .block, marginStyle 0 (-5), [⟨0⟩]⟩, ⟨some (.fromIndex 4), .block, marginStyle 8 0, []⟩, ⟨some (.fromIndex 1), .block, marginStyle 0 0, [⟨1⟩, ⟨2⟩]⟩]
  root := ⟨3⟩

theorem build_mixedMargins : BoxGen.build .sample mixedMargins = .some mixedTree :=
  BoxGen.build_of_run 12 (.fromIndex 1) (by decide) (by decide) (by decide)

/-- A shaper for documents without text. -/
def noText : Shaper := fun _ _ _ => .ok []

def window : Size := ⟨.fromPx 800, .fromPx 600⟩

/-- The start of its layout walk. -/
def mixedStart : LayoutState :=
  startState mixedTree window ⟨some (.fromIndex 1), .block, marginStyle 0 0, [⟨1⟩, ⟨2⟩]⟩
    (resolveBoxModel .sample (marginStyle 0 0) window.w (some window.h))

/-- The state in which its first block is done and its second one is next. -/
def mixedState : LayoutState :=
  (While.after (runStep .sample noText mixedTree mixedMargins.document window) 3 mixedStart).getD mixedStart

def mixedTop : Frame :=
  mixedState.stack.headD (rootFrame ⟨none, .block, marginStyle 0 0, []⟩ .zero
    (resolveBoxModel .sample (marginStyle 0 0) window.w (some window.h)) window)

theorem reaches_mixedState : Reaches .sample noText mixedTree mixedMargins.document window mixedState := by
  refine ⟨_, rfl, by decide, While.Steps.of_after (n := 3) ?_⟩
  obtain ⟨s, hs⟩ := Option.isSome_iff_exists.1 (show
    (While.after (runStep .sample noText mixedTree mixedMargins.document window) 3 mixedStart).isSome = true by decide +kernel)
  unfold mixedState
  rw [hs]
  exact hs

theorem between_mixed :
    Between mixedTree mixedState mixedTop ⟨1⟩ ⟨2⟩ ⟨some (.fromIndex 4), .block, marginStyle 8 0, []⟩ :=
  ⟨by decide +kernel, ⟨0, by decide +kernel, by decide +kernel, by decide +kernel⟩, by decide⟩

/-- The first block is 20 pixels high and at the top of the page. -/
theorem lastChild_mixed {last : Finished} (h : LastChild .sample mixedTree mixedTop mixedState.arenas ⟨1⟩ last) :
    last.origin = .zero ∧ last.borderBoxSize = ⟨.fromPx 800, .fromPx 20⟩ := by
  obtain ⟨d, hd, -, hstyle⟩ := h.box
  obtain rfl : ⟨some (.fromIndex 2), .block, marginStyle 0 (-5), [⟨0⟩]⟩ = d := Option.some.inj hd
  obtain ⟨style, hfragment⟩ := h.fragment
  have hbox : mixedState.arenas.fragments.getLast?.map Fragment.borderBox
      = some ⟨.zero, ⟨.fromPx 800, .fromPx 20⟩⟩ := by decide +kernel
  have hoffset : last.offset .sample = (.zero, .zero) := by
    rw [Finished.offset, hstyle]
    rfl
  rw [hfragment, Option.map_some, Finished.settled, hoffset] at hbox
  simpa [shiftFragment, shiftRect, Finished.fragment] using hbox

theorem gapFits_mixed {last : Finished} (h : LastChild .sample mixedTree mixedTop mixedState.arenas ⟨1⟩ last) :
    GapFits .sample mixedTree mixedState mixedTop last ⟨2⟩ ⟨some (.fromIndex 4), .block, marginStyle 8 0, []⟩ := by
  obtain ⟨horigin, hsize⟩ := lastChild_mixed h
  constructor
  all_goals
    rw [horigin]
    try rw [hsize]
    decide +kernel

/-- The theorem at that state. -/
theorem sibling_gap_iff_mixed : ∃ last, LastChild .sample mixedTree mixedTop mixedState.arenas ⟨1⟩ last ∧
    GapFits .sample mixedTree mixedState mixedTop last ⟨2⟩ ⟨some (.fromIndex 4), .block, marginStyle 8 0, []⟩ ∧
    (siblingGap .sample mixedTree mixedState mixedTop last ⟨2⟩ ⟨some (.fromIndex 4), .block, marginStyle 8 0, []⟩
        = Extent.collapse (bottomMargins .sample mixedTree mixedTop ⟨1⟩ ++ topMargins .sample mixedTree mixedTop ⟨2⟩) ↔
      Extent.Compatible (bottomMargins .sample mixedTree mixedTop ⟨1⟩) (topMargins .sample mixedTree mixedTop ⟨2⟩)) := by
  obtain ⟨last, hlast, hiff⟩ := sibling_gap_iff .sample noText window (BoxGen.invariant_of_build build_mixedMargins)
    reaches_mixedState between_mixed
  exact ⟨last, hlast, gapFits_mixed hlast, hiff (gapFits_mixed hlast)⟩

/-- In that document the walk leaves 8 pixels where the margins of the two chains together collapse to 5. -/
theorem sibling_gap_false : ¬∀ (Γ : FloatOps) (shape : Shaper) (tree : BoxTree) (document : Document) (viewport : Size),
    tree.Invariant document → ∀ s, Reaches Γ shape tree document viewport s → ∀ top a c child, Between tree s top a c child →
      ∃ last, LastChild Γ tree top s.arenas a last ∧ (GapFits Γ tree s top last c child →
        siblingGap Γ tree s top last c child = Extent.collapse (bottomMargins Γ tree top a ++ topMargins Γ tree top c)) := by
  intro h
  obtain ⟨last, hlast, hgap⟩ := h .sample noText mixedTree mixedMargins.document window
    (BoxGen.invariant_of_build build_mixedMargins) mixedState reaches_mixedState mixedTop ⟨1⟩ ⟨2⟩ _ between_mixed
  obtain ⟨horigin, hsize⟩ := lastChild_mixed hlast
  have := hgap (gapFits_mixed hlast)
  unfold siblingGap at this
  rw [horigin, hsize] at this
  revert this
  decide +kernel

end Block

end ChromeLight
