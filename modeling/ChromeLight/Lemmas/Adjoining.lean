import ChromeLight.Lemmas.Outline
import ChromeLight.Lemmas.Push

/-!
# Adjoining margins

The margins that adjoin at an edge of a box, without the memo (`Adjoining`): the box's own and, exactly while nothing
separates the two, those of its first (or last) child, every box in the containing block layout gives it. The chain loop
meets these (`adjoining_chainOf`), so an effective margin is their collapsed value (`IsEffective.collapse_links`).

The walk decides a second time which margins adjoin, by two flags of every frame. They say the same (`StackEdges`). And what
it adds the next margin to is where the border box of the last child ends (`LastPlaced`).
-/

namespace ChromeLight

namespace Block

/-- The boxes whose margins adjoin at an edge of a box, with these margins. -/
inductive Adjoining (Γ : FloatOps) (tree : BoxTree) (viewport : Size) (edge : Edge) : BoxId → List (BoxId × Au) → Prop where
  /-- Something separates the margin from the child's, or there is no such child. -/
  | ends {id : BoxId} {b : LayoutBox} {w : Au} {h : Option Au} (hb : tree.get id = some b)
      (hcb : ContainingBlock Γ tree viewport id w h)
      (hend : edge.collapsesThrough b.style (resolveBoxModel Γ b.style w h) = false ∨ edge.blockChild tree id = none) :
      Adjoining Γ tree viewport edge id [(id, edge.margin (resolveBoxModel Γ b.style w h))]
  | adjoins {id c : BoxId} {b : LayoutBox} {w : Au} {h : Option Au} {links : List (BoxId × Au)} (hb : tree.get id = some b)
      (hcb : ContainingBlock Γ tree viewport id w h)
      (hthrough : edge.collapsesThrough b.style (resolveBoxModel Γ b.style w h) = true)
      (hc : edge.blockChild tree id = some c) (hlinks : Adjoining Γ tree viewport edge c links) :
      Adjoining Γ tree viewport edge id ((id, edge.margin (resolveBoxModel Γ b.style w h)) :: links)

variable {Γ : FloatOps} {shape : Shaper} {tree : BoxTree} {viewport : Size} {document : Document} {edge : Edge}

/-! ## Chains -/

theorem Adjoining.unique (inv : tree.Invariant document) {id : BoxId} {links links' : List (BoxId × Au)}
    (h : Adjoining Γ tree viewport edge id links) (h' : Adjoining Γ tree viewport edge id links') : links = links' := by
  induction h generalizing links' with
  | ends hb hcb hend =>
    cases h' with
    | ends hb' hcb' =>
      obtain rfl := Option.some.inj (hb.symm.trans hb')
      obtain ⟨rfl, rfl⟩ := hcb.unique inv hcb'
      rfl
    | adjoins hb' hcb' hthrough hc =>
      obtain rfl := Option.some.inj (hb.symm.trans hb')
      obtain ⟨rfl, rfl⟩ := hcb.unique inv hcb'
      simp [hthrough, hc] at hend
  | adjoins hb hcb hthrough hc _ ih =>
    cases h' with
    | ends hb' hcb' hend =>
      obtain rfl := Option.some.inj (hb.symm.trans hb')
      obtain ⟨rfl, rfl⟩ := hcb.unique inv hcb'
      simp [hthrough, hc] at hend
    | adjoins hb' hcb' _ hc' hlinks =>
      obtain rfl := Option.some.inj (hb.symm.trans hb')
      obtain ⟨rfl, rfl⟩ := hcb.unique inv hcb'
      obtain rfl := Option.some.inj (hc.symm.trans hc')
      rw [ih hlinks]

/-- The chain loop meets the adjoining margins, although it takes the containing block's height as indefinite. -/
theorem adjoining_chainOf (law : edge.Lawful Γ) (inv : tree.Invariant document) {id : BoxId} {b : LayoutBox} {w : Au}
    {h : Option Au} (hb : tree.get id = some b) (hcb : ContainingBlock Γ tree viewport id w h) :
    Adjoining Γ tree viewport edge id (chainOf Γ tree edge id b.style (resolveBoxModel Γ b.style w h)) := by
  induction hi : id.index using Nat.strong_induction_on generalizing id b w h with
  | _ i ih =>
    obtain ⟨n, hn⟩ : ∃ n, tree.len = n + 1 := Nat.exists_eq_succ_of_ne_zero (Nat.ne_zero_of_lt (index_lt_len hb))
    cases hthrough : edge.collapsesThrough b.style (resolveBoxModel Γ b.style w h) with
    | false =>
      have hnil : chainBelow Γ tree edge [] tree.len id b.style (resolveBoxModel Γ b.style w h) = [] := by
        rw [hn]
        simp [chainBelow, hthrough]
      rw [chainOf, hnil]
      exact .ends hb hcb (.inl hthrough)
    | true =>
      cases hc : edge.blockChild tree id with
      | none =>
        have hnil : chainBelow Γ tree edge [] tree.len id b.style (resolveBoxModel Γ b.style w h) = [] := by
          rw [hn]
          simp [chainBelow, hthrough, hc]
        rw [chainOf, hnil]
        exact .ends hb hcb (.inr hc)
      | some c =>
        obtain ⟨b', d, hb', hmem, hd⟩ := law.child hc
        obtain rfl := Option.some.inj (hb.symm.trans hb')
        have hlt := (inv.resolves _ _ hb _ hmem).1
        have hidlt := index_lt_len hb
        have hs := law.next (Edge.Same.refl (resolveBoxModel Γ b.style w h)) hthrough d.style
        -- the child's chain is the same with its own containing block height
        have hbelow : chainBelow Γ tree edge [] tree.len id b.style (resolveBoxModel Γ b.style w h)
            = chainOf Γ tree edge c d.style (resolveBoxModel Γ d.style (resolveBoxModel Γ b.style w h).contentWidth
                (resolveBoxModel Γ b.style w h).knownHeight) := by
          rw [chainOf, hs.margin, chainBelow_eq law inv d.style (Nat.le_of_lt (index_lt_len hd)) (show c.index ≤ n by omega)
            (fresh_nil c) (fresh_nil c) hs, hn]
          simp [chainBelow, hthrough, hc, hd, lookup]
        rw [chainOf, hbelow]
        exact .adjoins hb hcb hthrough hc (ih _ (by omega) hd (hcb.child hb hmem) rfl)

/-- An effective margin is the collapsed value of the adjoining margins. -/
theorem IsEffective.collapse_links (law : edge.Lawful Γ) (inv : tree.Invariant document) {id : BoxId} {b : LayoutBox} {v : Au}
    (hb : tree.get id = some b) (hv : IsEffective Γ tree viewport edge id v) :
    ∃ links, Adjoining Γ tree viewport edge id links ∧ v.units = Extent.collapse (unitsOf (links.map Prod.snd)) := by
  obtain ⟨w, h, hcb, rfl⟩ := hv
  refine ⟨_, adjoining_chainOf law inv hb hcb, ?_⟩
  rw [chainMargins, hb]
  exact units_collapseMarginSet _

/-- The margins of a box other than the root that adjoin at an edge are among those its effective margin collapses. -/
def Included (Γ : FloatOps) (tree : BoxTree) (viewport : Size) (edge : Edge) (p c : BoxId) : Prop :=
  p ≠ tree.root ∧ ∃ links, Adjoining Γ tree viewport edge p links ∧ c ∈ links.map Prod.fst

/-- The child's margins are included exactly if the box is not the root and nothing separates its margin from the child's. -/
theorem included_iff (law : edge.Lawful Γ) (inv : tree.Invariant document) {p c : BoxId} {b : LayoutBox} {w : Au}
    {h : Option Au} (hb : tree.get p = some b) (hcb : ContainingBlock Γ tree viewport p w h)
    (hc : edge.blockChild tree p = some c) :
    Included Γ tree viewport edge p c ↔
      p ≠ tree.root ∧ edge.collapsesThrough b.style (resolveBoxModel Γ b.style w h) = true := by
  obtain ⟨b', d, hb', hmem, hd⟩ := law.child hc
  obtain rfl := Option.some.inj (hb.symm.trans hb')
  refine and_congr_right fun _ => ⟨?_, fun hthrough => ?_⟩
  · rintro ⟨links, hlinks, hin⟩
    cases hlinks with
    | ends =>
      obtain rfl := List.mem_singleton.1 hin
      exact absurd (inv.resolves _ _ hb _ hmem).1 (Nat.lt_irrefl _)
    | adjoins hb' hcb' hthrough =>
      obtain rfl := Option.some.inj (hb.symm.trans hb')
      obtain ⟨rfl, rfl⟩ := hcb.unique inv hcb'
      exact hthrough
  · have hlinks := adjoining_chainOf law inv hd (hcb.child hb hmem)
    exact ⟨_, .adjoins hb hcb hthrough hc hlinks, List.mem_cons_of_mem _ (List.mem_map_of_mem List.mem_cons_self)⟩

/-! ## The flags of the frames -/

/-- The model of a frame's box. -/
def Frame.model (Γ : FloatOps) (frame : Frame) : BoxModel := resolveBoxModel Γ frame.style frame.cbWidth frame.cbHeight

/-- The flags of a frame say whether the chains go past its box; of the root's frame they never do. -/
structure FrameEdges (Γ : FloatOps) (isRoot : Bool) (frame : Frame) : Prop where
  top : frame.firstChildCollapseEligible = (!isRoot && topEdge.collapsesThrough frame.style (frame.model Γ))
  bottom : frame.bottomCollapseEligible = (!isRoot && bottomEdge.collapsesThrough frame.style (frame.model Γ))

/-- Every frame of a stack has the right flags; the root's is at its bottom. -/
def StackEdges (Γ : FloatOps) : List Frame → Prop
  | [] => True
  | frame :: stack => FrameEdges Γ stack.isEmpty frame ∧ StackEdges Γ stack

theorem FrameEdges.next {isRoot : Bool} {frame : Frame} (h : FrameEdges Γ isRoot frame) : FrameEdges Γ isRoot frame.next :=
  ⟨h.top, h.bottom⟩

theorem FrameEdges.childDone {isRoot : Bool} {frame : Frame} (h : FrameEdges Γ isRoot frame) (origin : Point)
    (usedHeight margin : Au) (fragId : FragmentId) :
    FrameEdges Γ isRoot (frame.childDone origin usedHeight margin fragId) :=
  ⟨h.top, h.bottom⟩

theorem frameEdges_container (child : LayoutBox) (id : BoxId) (parent : Frame) (memo : MarginMemo) (fragStart : Nat) :
    FrameEdges Γ false (containerFrame fragStart child (placeChild Γ tree id child.style parent memo).1) where
  top := (Bool.true_and _).symm
  bottom := (Bool.true_and _).symm

theorem firstBlockChild_of_container (inv : tree.Invariant document) {p c : BoxId} {b : LayoutBox} (hb : tree.get p = some b)
    (hmade : b.kind ≠ .anonymousInline) (hk : isBlockContainer tree p = true)
    (hc : b.children.head? = some c) : firstBlockChild tree p = some c := by
  obtain ⟨d, hd, hlevel⟩ := blockLevel_of_container inv hb hmade hk c (List.mem_of_mem_head? hc)
  simp [firstBlockChild, hb, hc, blockLevelChild, hd, hlevel]

theorem lastBlockChild_of_container (inv : tree.Invariant document) {p c : BoxId} {b : LayoutBox} (hb : tree.get p = some b)
    (hmade : b.kind ≠ .anonymousInline) (hk : isBlockContainer tree p = true)
    (hc : b.children.getLast? = some c) : lastBlockChild tree p = some c := by
  obtain ⟨d, hd, hlevel⟩ := blockLevel_of_container inv hb hmade hk c (List.mem_of_getLast? hc)
  simp [lastBlockChild, hb, hc, blockLevelChild, hd, hlevel]

/-! ## The last child -/

/-- Where a block's border box ends, below the top of its container's content box. -/
def Finished.bottomIn (b : Finished) (parent : Frame) : Au :=
  (b.origin.y.saturatingSub parent.contentOrigin.y).saturatingAdd b.borderBoxSize.h

/-- A child of a frame's container is the last one placed: its fragment is the last of the arena and of the container's
children, as finished, and moved by the child's own offset only. -/
structure LastChild (Γ : FloatOps) (tree : BoxTree) (frame : Frame) (a : Arenas) (c : BoxId) (b : Finished) : Prop where
  box : ∃ d, tree.get c = some d ∧ b.node = d.node ∧ b.style = d.style
  cb : b.cbWidth = frame.contentWidth ∧ b.cbHeight = frame.knownHeight
  fragment : ∃ style, a.fragments.getLast? = some (b.settled Γ style)
  id : frame.childrenFragIds.getLast? = some ⟨a.fragments.length - 1⟩

/-- A frame's content ends where the last child placed ends. -/
def LastPlaced (Γ : FloatOps) (tree : BoxTree) (frame : Frame) (a : Arenas) : Prop :=
  (frame.nextChild = 0 ∧ frame.runningContentBottom = .zero) ∨
  ∃ k c b, frame.nextChild = k + 1 ∧ frame.blockChildren[k]? = some c ∧ LastChild Γ tree frame a c b ∧
    frame.runningContentBottom = b.bottomIn frame

/-- What holds of flags and last children in every state of the walk. -/
structure EdgeInv (Γ : FloatOps) (tree : BoxTree) (s : LayoutState) : Prop where
  edges : StackEdges Γ s.stack
  starts : ∀ frame ∈ s.stack, frame.fragStart ≤ s.arenas.fragments.length
  last : ∀ frame ∈ s.stack.head?, LastPlaced Γ tree frame s.arenas

/-- A finished block that has just been appended is the last child of the frame it is handed to. -/
theorem lastPlaced_push (Γ : FloatOps) (parent : Frame) (a : Arenas) (b : Finished) {c : BoxId} {d : LayoutBox} {k : Nat}
    (hstart : b.fragStart ≤ a.fragments.length) (hd : tree.get c = some d) (hnode : b.node = d.node) (hstyle : b.style = d.style)
    (hcb : b.cbWidth = parent.contentWidth ∧ b.cbHeight = parent.knownHeight)
    (hk : parent.nextChild = k + 1) (hc : parent.blockChildren[k]? = some c) (margin : Au) :
    LastPlaced Γ tree (parent.childDone b.origin b.borderBoxSize.h margin (b.push Γ a).1) (b.push Γ a).2 := by
  refine .inr ⟨k, c, b, hk, hc, ⟨⟨d, hd, hnode, hstyle⟩, hcb, ⟨_, b.getLast_push Γ a hstart⟩, ?_⟩, rfl⟩
  rw [b.length_push, b.push_eq]
  exact List.getLast?_concat

/-- A leaf's fragment is appended after its lines. -/
theorem layoutLeaf_eq {child : LayoutBox} {placement : ChildPlacement} {a a' : Arenas} {error error' : Option LayoutError}
    {fragId : FragmentId} {usedHeight : Au}
    (h : layoutLeaf Γ shape tree document child placement a error = ((fragId, usedHeight), a', error')) :
    ∃ (b : Finished) (lines : Arenas), b.node = child.node ∧ b.style = child.style ∧ b.origin = placement.origin ∧
      (b.cbWidth = placement.cbWidth ∧ b.cbHeight = placement.cbHeight) ∧ b.fragStart = a.fragments.length ∧ a.fragments.length ≤ lines.fragments.length ∧ usedHeight = b.borderBoxSize.h ∧
      fragId = (b.push Γ lines).1 ∧ a' = (b.push Γ lines).2 := by
  have hlays := @leafContent_lays shape tree document child placement a error
  have hle := Nat.le_trans (Nat.le_add_right _ _) (Nat.le_of_eq hlays.length.symm)
  obtain ⟨hid, ha⟩ := Prod.mk.inj h
  obtain ⟨rfl, rfl⟩ := Prod.mk.inj hid
  obtain ⟨rfl, -⟩ := Prod.mk.inj ha
  exact ⟨_, _, rfl, rfl, rfl, ⟨rfl, rfl⟩, rfl, hle, rfl, rfl, rfl⟩

theorem EdgeInv.step (inv : tree.Invariant document) {path : List BoxId} {s s' : LayoutState} (h : EdgeInv Γ tree s)
    (hw : WalkInv Γ tree viewport path s) (hs : Advances Γ shape tree document s s') : EdgeInv Γ tree s' := by
  obtain ⟨hedges, hstarts, hlast⟩ := h
  have hst := hw.stacked
  obtain ⟨p, path, rfl⟩ := hst.path_ne_nil
  cases hs with
  | missing hc hg =>
    obtain ⟨b, hf⟩ := hst.frameOf
    exact absurd hg (hf.child_ne_none inv (List.mem_of_getElem? hc))
  | @container top stack arenas memo error id child hc hg hk =>
    obtain ⟨htop, hstack⟩ := hedges
    refine ⟨⟨frameEdges_container child id _ _ _, htop.next, hstack⟩, ?_, ?_⟩
    · intro frame hframe
      rcases List.mem_cons.1 hframe with rfl | hframe
      · exact Nat.le_refl _
      · rcases List.mem_cons.1 hframe with rfl | hframe
        · exact hstarts top List.mem_cons_self
        · exact hstarts frame (List.mem_cons_of_mem _ hframe)
    · rintro _ ⟨⟩
      exact .inl ⟨rfl, rfl⟩
  | @leaf top stack arenas arenas' memo error error' id child fragId usedHeight hc hg hk hl =>
    obtain ⟨htop, hstack⟩ := hedges
    obtain ⟨b, lines, hnode, hstyle, horigin, hcb, hstart, hle, rfl, rfl, rfl⟩ := layoutLeaf_eq hl
    refine ⟨⟨htop.next.childDone _ _ _ _, hstack⟩, ?_, ?_⟩
    · intro frame hframe
      rw [Finished.length_push]
      refine Nat.le_succ_of_le (Nat.le_trans ?_ hle)
      rcases List.mem_cons.1 hframe with rfl | hframe
      · exact hstarts top List.mem_cons_self
      · exact hstarts frame (List.mem_cons_of_mem _ hframe)
    · rintro _ ⟨⟩
      rw [← horigin]
      exact lastPlaced_push Γ top.next lines b (hstart ▸ hle) hg hnode hstyle hcb rfl hc _
  | @finish top parent stack arenas memo error hdone =>
    obtain ⟨htop, hparent, hstack⟩ := hedges
    have hstart := hstarts top List.mem_cons_self
    refine ⟨⟨hparent.childDone _ _ _ _, hstack⟩, ?_, ?_⟩
    · intro frame hframe
      rw [Finished.length_push]
      refine Nat.le_succ_of_le ?_
      rcases List.mem_cons.1 hframe with rfl | hframe
      · exact hstarts parent (List.mem_cons_of_mem _ List.mem_cons_self)
      · exact hstarts frame (List.mem_cons_of_mem _ (List.mem_cons_of_mem _ hframe))
    · rintro _ ⟨⟩
      cases hst with
      | push hs hf hk hc heff =>
        obtain ⟨_, hparentOf⟩ := hs.frameOf
        have hcb := hf.cb.unique inv (hparentOf.child (List.mem_of_getElem? hc))
        exact lastPlaced_push Γ parent arenas top.finished hstart hf.box hf.node hf.style hcb hk hc _

theorem EdgeInv.start {root : LayoutBox} (model : BoxModel) : EdgeInv Γ tree (startState tree viewport root model) where
  edges := ⟨⟨rfl, rfl⟩, trivial⟩
  starts := by
    intro frame hframe
    obtain rfl := List.mem_singleton.1 hframe
    exact Nat.le_refl _
  last := by
    rintro _ ⟨⟩
    exact .inl ⟨rfl, rfl⟩

/-- Every state of the walk has both invariants. -/
theorem edgeInv_of_steps (inv : tree.Invariant document) {root : LayoutBox} (hg : tree.get tree.root = some root)
    (hk : isBlockContainer tree tree.root = true) {s : LayoutState}
    (hs : While.Steps (runStep Γ shape tree document viewport)
      (startState tree viewport root (resolveBoxModel Γ root.style viewport.w (some viewport.h))) s) :
    ∃ path, WalkInv Γ tree viewport path s ∧ EdgeInv Γ tree s :=
  hs.invariant (I := fun s => ∃ path, WalkInv Γ tree viewport path s ∧ EdgeInv Γ tree s)
    (fun _ _ ⟨_, hw, he⟩ hb => by
      have ha := advances_of_runStep hb
      obtain ⟨path', hw'⟩ := hw.step inv ha
      exact ⟨path', hw', he.step inv hw ha⟩)
    ⟨_, WalkInv.start hg hk, EdgeInv.start _⟩

end Block

end ChromeLight
