import ChromeLight.Theorems.Layout
import Mathlib.Data.Set.Card

/-!
# The work of the margin chains

Over a whole layout walk, every block-level box other than the root is appended to one chain of top margins and to one chain of
bottom margins, once (`marginChains_linear`): the chains run ahead of the walk, but a box whose own chain is still to be walked
has no box below it with a value, so the loop never stops at one, and the boxes with a value are those that were appended. When
the walk returns it has placed every block-level box, so all of them have a value.
-/

namespace ChromeLight

open Forest (Child)

namespace Block

/-! ## Chains and how they end -/

/-- How the loop over a chain ends: at a box that separates its margin from its child's, at one without a block-level child,
at one whose child has a value in the memo, at one whose child does not resolve, or at the end of its counter. -/
inductive ChainEnd where
  | separated
  | childless
  | memoized
  | unresolved
  | counted
deriving DecidableEq, Repr

/-- The boxes appended to a chain with their margins, and how the loop over it ended. -/
structure Chain where
  links : List (BoxId × Au)
  ends : ChainEnd
deriving DecidableEq, Repr

/-- The boxes of a chain. -/
def Chain.boxes (chain : Chain) : List BoxId := chain.links.map Prod.fst

/-- The loop of `chainBelow`, with how it ends. -/
def chainLoop (Γ : FloatOps) (tree : BoxTree) (edge : Edge) (memo : List (Option Au)) :
    Nat → BoxId → LayoutStyle → BoxModel → Chain
  | 0, _, style, model => ⟨[], if !edge.collapsesThrough style model then .separated else .counted⟩
  | remaining + 1, current, style, model =>
    if !edge.collapsesThrough style model then ⟨[], .separated⟩
    else match edge.blockChild tree current with
      | none => ⟨[], .childless⟩
      | some childId =>
        if (lookup memo childId).isSome then ⟨[], .memoized⟩
        else match tree.get childId with
          | none => ⟨[], .unresolved⟩
          | some child =>
            let childModel := resolveBoxModel Γ child.style model.contentWidth none
            let below := chainLoop Γ tree edge memo remaining childId child.style childModel
            ⟨(childId, edge.margin childModel) :: below.links, below.ends⟩

/-- The chain that `effectiveMargin` appends boxes to, none for a box that has a value. -/
def chainOfCall (Γ : FloatOps) (tree : BoxTree) (edge : Edge) (id : BoxId) (style : LayoutStyle) (model : BoxModel)
    (memo : List (Option Au)) : Option Chain :=
  match lookup memo id with
  | some _ => none
  | none =>
    let below := chainLoop Γ tree edge memo tree.len id style model
    some ⟨(id, edge.margin model) :: below.links, below.ends⟩

/-- One of the two block-axis sides of a box. -/
inductive Side where
  | top
  | bottom
deriving DecidableEq, Repr

/-- The edge whose margins collapse on a side. -/
def Side.edge : Side → Edge
  | .top => topEdge
  | .bottom => bottomEdge

/-- The memo of a side. -/
def Side.memo : Side → MarginMemo → List (Option Au)
  | .top, memo => memo.top
  | .bottom, memo => memo.bottom

/-- The chain of the effective margin of the child that the next iteration places. -/
def chainAt (Γ : FloatOps) (tree : BoxTree) (side : Side) (s : LayoutState) : Option Chain := do
  let top ← s.stack.head?
  let id ← top.blockChildren[top.nextChild]?
  let child ← tree.get id
  chainOfCall Γ tree side.edge id child.style (resolveBoxModel Γ child.style top.contentWidth top.knownHeight)
    (side.memo s.memo)

/-- The states of the layout walk at the start of its iterations, if it returns within that many. A root without block-level
children is laid out without a walk. -/
def walkStates (Γ : FloatOps) (shape : Shaper) (tree : BoxTree) (document : Document) (viewport : Size) (n : Nat) :
    Option (List LayoutState) :=
  match tree.get tree.root with
  | none => some []
  | some root =>
    if isBlockContainer tree tree.root then
      let start := startState tree viewport root (resolveBoxModel Γ root.style viewport.w (some viewport.h))
      (While.run (runStep Γ shape tree document viewport) n start).map fun _ =>
        While.trace (runStep Γ shape tree document viewport) n start
    else some []

/-- A block-level box of a tree other than its root. -/
def MarginBox (tree : BoxTree) (id : BoxId) : Prop :=
  id ≠ tree.root ∧ Relation.ReflTransGen (Child tree.kids) id tree.root ∧
    ∃ b, tree.get id = some b ∧ BoxGen.isBlockLevel b.kind = true

variable {Γ : FloatOps} {shape : Shaper} {tree : BoxTree} {document : Document} {viewport : Size} {edge : Edge}

/-- The counting loop walks the chain of the plain one. -/
theorem links_chainLoop (memo : List (Option Au)) (n : Nat) (id : BoxId) (style : LayoutStyle) (m : BoxModel) :
    (chainLoop Γ tree edge memo n id style m).links = chainBelow Γ tree edge memo n id style m := by
  induction n generalizing id style m with
  | zero => rfl
  | succ n ih =>
    unfold chainLoop chainBelow
    cases edge.collapsesThrough style m with
    | false => rfl
    | true =>
      cases edge.blockChild tree id with
      | none => rfl
      | some c =>
        cases hv : (lookup memo c).isSome with
        | true => simp only [hv, Bool.not_true, Bool.false_eq_true, if_false, if_true]
        | false =>
          cases hd : tree.get c with
          | none => simp only [hv, hd, Bool.not_true, Bool.false_eq_true, if_false]
          | some d => simp only [hv, hd, ih, Bool.not_true, Bool.false_eq_true, if_false]

/-- `effectiveMargin` enters the chain in the memo, if there is one. -/
theorem effectiveMargin_memo (id : BoxId) (style : LayoutStyle) (m : BoxModel) (memo : List (Option Au)) :
    (effectiveMargin Γ tree edge id style m memo).2 =
      match chainOfCall Γ tree edge id style m memo with
      | none => memo
      | some chain => memoizeSuffixCollapse chain.links memo := by
  unfold effectiveMargin chainOfCall
  cases lookup memo id with
  | some v => rfl
  | none => simp only [links_chainLoop]

/-- Both edges are lawful. -/
theorem Side.lawful (side : Side) : side.edge.Lawful Γ := by
  cases side with
  | top => exact topEdge_lawful
  | bottom => exact bottomEdge_lawful

/-- The child a chain goes on to is block-level. -/
theorem Side.blockChild_level (side : Side) {id c : BoxId} (h : side.edge.blockChild tree id = some c) :
    ∃ d, tree.get c = some d ∧ BoxGen.isBlockLevel d.kind = true := by
  cases side with
  | top => exact (blockLevelChild_eq h).2
  | bottom => exact (blockLevelChild_eq h).2

/-- Placing a child looks up its margin on a side. -/
theorem placeChild_memo (side : Side) (id : BoxId) (style : LayoutStyle) (parent : Frame) (memo : MarginMemo) :
    side.memo (placeChild Γ tree id style parent memo).2 = (effectiveMargin Γ tree side.edge id style
      (resolveBoxModel Γ style parent.contentWidth parent.knownHeight) (side.memo memo)).2 := by
  cases side <;> rfl

/-- A box with a containing block is below the root. -/
theorem ContainingBlock.reaches {id : BoxId} {w : Au} {h : Option Au} (hcb : ContainingBlock Γ tree viewport id w h) :
    Relation.ReflTransGen (Child tree.kids) id tree.root := by
  induction hcb with
  | root => exact .refl
  | child _ hb hc ih => exact .head (BoxTree.mem_kids.2 ⟨_, hb, hc⟩) ih

/-! ## One chain -/

/-- The loop over the chain of a box that has no box with a value below it ends where margins no longer adjoin, and appends
block-level boxes without a value. -/
theorem chainLoop_spec (side : Side) (inv : tree.Invariant document) {memo : List (Option Au)} {n : Nat} {id : BoxId}
    {w : Au} {h : Option Au} (style : LayoutStyle) (m : BoxModel) (hn : id.index < n)
    (hcb : ContainingBlock Γ tree viewport id w h) (hf : Fresh tree memo id) :
    let chain := chainLoop Γ tree side.edge memo n id style m
    (chain.ends = .separated ∨ chain.ends = .childless) ∧
      ∀ z ∈ chain.boxes, MarginBox tree z ∧ lookup memo z = none := by
  induction n generalizing id w h style m with
  | zero => omega
  | succ n ih =>
    unfold chainLoop
    cases hthrough : side.edge.collapsesThrough style m with
    | false =>
      refine ⟨.inl rfl, ?_⟩
      intro z hz
      exact absurd hz List.not_mem_nil
    | true =>
      cases hc : side.edge.blockChild tree id with
      | none =>
        refine ⟨.inr rfl, ?_⟩
        intro z hz
        exact absurd hz List.not_mem_nil
      | some c =>
        have law : side.edge.Lawful Γ := side.lawful
        obtain ⟨b, d, hb, hmem, hd⟩ := law.child hc
        have hkid : c ∈ tree.kids id := BoxTree.mem_kids.2 ⟨b, hb, hmem⟩
        have hlt := (inv.resolves _ _ hb _ hmem).1
        have hnone := hf c (.single hkid)
        obtain ⟨hends, hboxes⟩ := ih d.style (resolveBoxModel Γ d.style m.contentWidth none) (by omega) (hcb.child hb hmem)
          (hf.kid hkid)
        simp only [hnone, hd, Option.isSome_none, Bool.false_eq_true, if_false, Bool.not_true]
        refine ⟨hends, ?_⟩
        intro z hz
        rcases List.mem_cons.1 hz with rfl | hz
        · exact ⟨⟨hcb.ne_root inv hb hmem, (hcb.child hb hmem).reaches, side.blockChild_level hc⟩, hnone⟩
        · exact hboxes z hz

/-- The boxes appended to the chains so far: every one of them once, and exactly those that have a value. -/
structure ChainInv (tree : BoxTree) (memo : List (Option Au)) (chains : List Chain) : Prop where
  nodup : (chains.flatMap Chain.boxes).Nodup
  valued : ∀ id, id ∈ chains.flatMap Chain.boxes ↔ (lookup memo id).isSome
  boxes : ∀ id ∈ chains.flatMap Chain.boxes, MarginBox tree id
  ends : ∀ chain ∈ chains, chain.ends = .separated ∨ chain.ends = .childless

/-- At first no box is in a chain. -/
theorem chainInv_new (n : Nat) : ChainInv tree (List.replicate n none) [] where
  nodup := List.nodup_nil
  valued id := by simp [lookup_new]
  boxes _ hid := absurd hid List.not_mem_nil
  ends _ hchain := absurd hchain List.not_mem_nil

/-- A call of `effectiveMargin` appends boxes that have no value, and gives them one. -/
theorem ChainInv.call (side : Side) (inv : tree.Invariant document) {memo : List (Option Au)} {chains : List Chain}
    (h : ChainInv tree memo chains) (hm : MemoGood Γ tree viewport side.edge memo) {id : BoxId} {b : LayoutBox} {w : Au}
    {k : Option Au} (hb : tree.get id = some b) (hcb : ContainingBlock Γ tree viewport id w k) (hbox : MarginBox tree id) :
    ChainInv tree (effectiveMargin Γ tree side.edge id b.style (resolveBoxModel Γ b.style w k) memo).2
      (chains ++ (chainOfCall Γ tree side.edge id b.style (resolveBoxModel Γ b.style w k) memo).toList) := by
  rw [effectiveMargin_memo]
  unfold chainOfCall
  cases hv : lookup memo id with
  | some v => simpa using h
  | none =>
    have law : side.edge.Lawful Γ := side.lawful
    have hfresh := hm.fresh inv hcb hbox.1 hv
    obtain ⟨hends, hbelow⟩ := chainLoop_spec side inv b.style (resolveBoxModel Γ b.style w k) (index_lt_len hb) hcb hfresh
    have hlen := Nat.le_of_lt (index_lt_len hb)
    have hlinks : (id, side.edge.margin (resolveBoxModel Γ b.style w k)) ::
        (chainLoop Γ tree side.edge memo tree.len id b.style (resolveBoxModel Γ b.style w k)).links
          = chainOf Γ tree side.edge id b.style (resolveBoxModel Γ b.style w k) := by
      rw [links_chainLoop, chainBelow_eq law inv b.style hlen hlen hfresh (fresh_nil id) (Edge.Same.refl _)]
      rfl
    have hnew : ∀ z ∈ (chainOf Γ tree side.edge id b.style (resolveBoxModel Γ b.style w k)).map Prod.fst,
        MarginBox tree z ∧ lookup memo z = none := by
      rw [← hlinks]
      intro z hz
      rcases List.mem_cons.1 hz with rfl | hz
      · exact ⟨hbox, hv⟩
      · exact hbelow z hz
    have hn := chainOf_nodup law inv id b.style (resolveBoxModel Γ b.style w k)
    have hvalued := isSome_lookup_memoize
      (hm.length.symm ▸ chainOf_lt_len law inv hb b.style (resolveBoxModel Γ b.style w k)) hn
    simp only [hlinks, Option.toList_some]
    constructor
    · rw [List.flatMap_append, List.flatMap_singleton, List.nodup_append]
      refine ⟨h.nodup, hn, ?_⟩
      rintro z hz _ hz' rfl
      rw [h.valued, (hnew z hz').2] at hz
      cases hz
    · intro z
      rw [List.flatMap_append, List.flatMap_singleton, List.mem_append, h.valued, hvalued, or_comm]
      rfl
    · intro z hz
      rw [List.flatMap_append, List.flatMap_singleton, List.mem_append] at hz
      rcases hz with hz | hz
      · exact h.boxes z hz
      · exact (hnew z hz).1
    · intro chain hchain
      rcases List.mem_append.1 hchain with hchain | hchain
      · exact h.ends chain hchain
      · obtain rfl := List.mem_singleton.1 hchain
        exact hends

/-! ## The boxes that are placed -/

/-- The children of a frame's box before a position are placed, with all blocks below them. -/
def PlacedBefore (tree : BoxTree) (memo : MarginMemo) (frame : Frame) (n : Nat) : Prop :=
  ∀ k < n, ∀ c, frame.blockChildren[k]? = some c → ∀ z, Relation.ReflTransGen (BlockChild tree) z c → Placed tree memo z

/-- In the top frame the children before the next one are done, in the others all but the one whose frame is above. -/
structure DoneInv (tree : BoxTree) (s : LayoutState) : Prop where
  top : ∀ frame ∈ s.stack.head?, PlacedBefore tree s.memo frame frame.nextChild
  below : ∀ frame ∈ s.stack.tail, PlacedBefore tree s.memo frame (frame.nextChild - 1)

/-- What was placed before stays so. -/
theorem PlacedBefore.mono {memo memo' : MarginMemo} (h : ∀ z, Placed tree memo z → Placed tree memo' z) {frame : Frame} {n : Nat}
    (hp : PlacedBefore tree memo frame n) : PlacedBefore tree memo' frame n := by
  intro k hk c hc z hz
  exact h z (hp k hk c hc z hz)

/-- One more child is done. -/
theorem PlacedBefore.succ {memo : MarginMemo} {frame : Frame} {n : Nat} {id : BoxId} (hp : PlacedBefore tree memo frame n)
    (hid : frame.blockChildren[n]? = some id)
    (hbelow : ∀ z, Relation.ReflTransGen (BlockChild tree) z id → Placed tree memo z) :
    PlacedBefore tree memo frame (n + 1) := by
  intro k hk c hc z hz
  rcases Nat.lt_or_eq_of_le (Nat.le_of_lt_succ hk) with hk | rfl
  · exact hp k hk c hc z hz
  · obtain rfl := Option.some.inj (hid.symm.trans hc)
    exact hbelow z hz

/-- Where all children of a frame's box are done, so are all blocks below the box. -/
theorem PlacedBefore.all {memo : MarginMemo} {frame : Frame} {id : BoxId} {b : LayoutBox}
    (hf : FrameOf Γ tree viewport b id frame) (hp : PlacedBefore tree memo frame frame.nextChild)
    (hdone : frame.blockChildren.length ≤ frame.nextChild) (hid : Placed tree memo id) :
    ∀ z, Relation.ReflTransGen (BlockChild tree) z id → Placed tree memo z := by
  intro z hz
  rcases Relation.ReflTransGen.cases_tail hz with rfl | ⟨c, hzc, -, hc⟩
  · exact hid
  · obtain ⟨b', hb', hmem⟩ := BoxTree.mem_kids.1 hc
    obtain rfl := Option.some.inj (hf.box.symm.trans hb')
    obtain ⟨k, hk, rfl⟩ := List.getElem_of_mem (hf.children ▸ hmem)
    exact hp k (Nat.lt_of_lt_of_le hk hdone) _ (List.getElem?_eq_getElem hk) z hzc

/-- A step places boxes that were not placed. -/
theorem DoneInv.step (inv : tree.Invariant document) {path : List BoxId} {s s' : LayoutState} (h : DoneInv tree s)
    (hw : WalkInv Γ tree viewport path s) (hs : Advances Γ shape tree document s s') : DoneInv tree s' := by
  obtain ⟨htop, hbelow⟩ := h
  have hst := hw.stacked
  obtain ⟨p, path, rfl⟩ := hst.path_ne_nil
  have hp := hw.placed p List.mem_cons_self
  cases hs with
  | missing hc hg =>
    obtain ⟨b, hf⟩ := hst.frameOf
    exact absurd hg (hf.child_ne_none inv (List.mem_of_getElem? hc))
  | @container top stack arenas memo error id child hc hg hk =>
    obtain ⟨b, hf⟩ := hst.frameOf
    have hr := placeChild_spec inv hf.next (List.mem_of_getElem? hc) hg hp hw.topMemo hw.bottomMemo
    constructor
    · rintro _ ⟨⟩ k hk
      exact absurd hk (Nat.not_lt_zero k)
    · intro frame hframe
      rcases List.mem_cons.1 hframe with rfl | hframe
      · exact (htop top rfl).mono hr.mono
      · exact (hbelow frame hframe).mono hr.mono
  | @leaf top stack arenas arenas' memo error error' id child fragId usedHeight hc hg hk hl =>
    obtain ⟨b, hf⟩ := hst.frameOf
    have hr := placeChild_spec inv hf.next (List.mem_of_getElem? hc) hg hp hw.topMemo hw.bottomMemo
    constructor
    · rintro _ ⟨⟩
      refine PlacedBefore.succ ((htop top rfl).mono hr.mono) hc ?_
      intro z hz
      rcases Relation.ReflTransGen.cases_tail hz with rfl | ⟨c, -, hcontainer, -⟩
      · exact hr.placed
      · rw [hk] at hcontainer
        cases hcontainer
    · intro frame hframe
      exact (hbelow frame hframe).mono hr.mono
  | @finish top parent stack arenas memo error hdone =>
    cases hst with
    | @push _ _ _ _ q path b k hs hf hk hc heff =>
      constructor
      · rintro _ ⟨⟩
        have hparent := hbelow parent List.mem_cons_self
        rw [hk, Nat.add_sub_cancel] at hparent
        have hall := PlacedBefore.succ hparent hc ((htop top rfl).all hf hdone hp)
        rw [← hk] at hall
        exact hall
      · intro frame hframe
        exact hbelow frame (List.mem_cons_of_mem _ hframe)

/-- At first only the root is placed. -/
theorem DoneInv.start (root : LayoutBox) (model : BoxModel) : DoneInv tree (startState tree viewport root model) where
  top := by
    rintro _ ⟨⟩ k hk
    exact absurd hk (Nat.not_lt_zero k)
  below _ hframe := absurd hframe List.not_mem_nil

/-! ## The walk -/

/-- A box with margins to collapse is below the root, by block-level children. -/
theorem MarginBox.blockChild (hgen : tree.Generated document) {id : BoxId} (h : MarginBox tree id) :
    Relation.ReflTransGen (BlockChild tree) id tree.root := by
  obtain ⟨-, hreach, b, hb, hlevel⟩ := h
  refine blockChild_of_reachable hgen hreach hb ?_
  cases hk : b.kind <;> simp [hk, BoxGen.isBlockLevel] at hlevel ⊢

/-- A child of a frame's box is a block-level box other than the root. -/
theorem FrameOf.marginBox (hgen : tree.Generated document) {id c : BoxId} {b : LayoutBox} {frame : Frame}
    (hf : FrameOf Γ tree viewport b id frame) (hc : c ∈ frame.blockChildren) : MarginBox tree c := by
  have hmem : c ∈ b.children := hf.children ▸ hc
  exact ⟨hf.cb.ne_root hgen.invariant hf.box hmem, (hf.cb.child hf.box hmem).reaches,
    blockLevel_of_container hgen.invariant hf.box (hgen.made id b hf.cb.reaches hf.box) hf.container c hmem⟩

/-- The chain that placing a child walks. -/
theorem chainAt_child {side : Side} {top : Frame} {stack : List Frame} {arenas : Arenas} {memo : MarginMemo}
    {error : Option LayoutError} {id : BoxId} {child : LayoutBox} (hc : top.blockChildren[top.nextChild]? = some id)
    (hg : tree.get id = some child) :
    chainAt Γ tree side ⟨top :: stack, arenas, memo, error⟩ = chainOfCall Γ tree side.edge id child.style
      (resolveBoxModel Γ child.style top.contentWidth top.knownHeight) (side.memo memo) := by
  simp [chainAt, hc, hg]

/-- Where all children of the top frame's box are done no chain is walked. -/
theorem chainAt_done {side : Side} {s : LayoutState} (h : ∀ top ∈ s.stack.head?, top.blockChildren.length ≤ top.nextChild) :
    chainAt Γ tree side s = none := by
  unfold chainAt
  cases htop : s.stack.head? with
  | none => rfl
  | some top => simp [List.getElem?_eq_none (h top htop)]

/-- Placing a child of the top frame's box walks at most one chain. -/
theorem ChainInv.place (side : Side) (hgen : tree.Generated document) {chains : List Chain} {path : List BoxId} {top : Frame}
    {stack : List Frame} {arenas : Arenas} {memo : MarginMemo} {error : Option LayoutError}
    (h : ChainInv tree (side.memo memo) chains) (hw : WalkInv Γ tree viewport path ⟨top :: stack, arenas, memo, error⟩)
    {id : BoxId} {child : LayoutBox} (hc : top.blockChildren[top.nextChild]? = some id) (hg : tree.get id = some child) :
    ChainInv tree (side.memo (placeChild Γ tree id child.style top.next memo).2)
      (chains ++ (chainAt Γ tree side ⟨top :: stack, arenas, memo, error⟩).toList) := by
  obtain ⟨p, path, rfl⟩ := hw.stacked.path_ne_nil
  obtain ⟨b, hf⟩ := hw.stacked.frameOf
  have hmem := List.mem_of_getElem? hc
  have hgood : MemoGood Γ tree viewport side.edge (side.memo memo) := by
    cases side with
    | top => exact hw.topMemo
    | bottom => exact hw.bottomMemo
  rw [chainAt_child hc hg, placeChild_memo]
  exact h.call side hgen.invariant hgood hg (hf.child hmem) (hf.marginBox hgen hmem)

/-- A step adds one chain at most, of boxes that were in none. -/
theorem ChainInv.step (side : Side) (hgen : tree.Generated document) {chains : List Chain} {path : List BoxId}
    {s s' : LayoutState} (h : ChainInv tree (side.memo s.memo) chains) (hw : WalkInv Γ tree viewport path s)
    (hs : Advances Γ shape tree document s s') :
    ChainInv tree (side.memo s'.memo) (chains ++ (chainAt Γ tree side s).toList) := by
  cases hs with
  | missing hc hg =>
    obtain ⟨p, path, rfl⟩ := hw.stacked.path_ne_nil
    obtain ⟨b, hf⟩ := hw.stacked.frameOf
    exact absurd hg (hf.child_ne_none hgen.invariant (List.mem_of_getElem? hc))
  | container hc hg hk => exact h.place side hgen hw hc hg
  | leaf hc hg hk hl => exact h.place side hgen hw hc hg
  | @finish top parent stack arenas memo error hdone =>
    have hnone : chainAt Γ tree side ⟨top :: parent :: stack, arenas, memo, error⟩ = none := by
      refine chainAt_done ?_
      rintro _ ⟨⟩
      exact hdone
    rw [hnone, Option.toList_none, List.append_nil]
    exact h

/-- What holds in every state of the walk, of the chains walked before it. -/
def WorkInv (Γ : FloatOps) (tree : BoxTree) (viewport : Size) (side : Side) (s : LayoutState) (chains : List Chain) : Prop :=
  ∃ path, WalkInv Γ tree viewport path s ∧ DoneInv tree s ∧ ChainInv tree (side.memo s.memo) chains

/-- When the walk returns, every block-level box is placed. -/
theorem WorkInv.all_placed (hgen : tree.Generated document) {side : Side} {s : LayoutState} {chains : List Chain}
    (h : WorkInv Γ tree viewport side s chains) {r : FragmentTree × Option LayoutError}
    (hr : runStep Γ shape tree document viewport s = .inr r) :
    (∀ id, MarginBox tree id → (lookup (side.memo s.memo) id).isSome) ∧ chainAt Γ tree side s = none := by
  obtain ⟨path, hw, hdone, -⟩ := h
  obtain ⟨stack, arenas, memo, error⟩ := s
  have hst := hw.stacked
  obtain ⟨rfl, -⟩ | ⟨top, rfl, hlen, -⟩ := returns_of_runStep hr
  · cases hst
  · cases hst with
    | @root _ b hf =>
      have hall := (hdone.top top rfl).all hf hlen (.inl rfl)
      constructor
      · intro id hid
        rcases hall id (hid.blockChild hgen) with h | ⟨h1, h2⟩
        · exact absurd h hid.1
        · cases side with
          | top => exact h1
          | bottom => exact h2
      · refine chainAt_done ?_
        rintro _ ⟨⟩
        exact hlen

/-- The work of the chains of a side: every block-level box other than the root is appended to one of them, once. -/
structure LinearWork (tree : BoxTree) (chains : List Chain) : Prop where
  nodup : (chains.flatMap Chain.boxes).Nodup
  appended : ∀ id, id ∈ chains.flatMap Chain.boxes ↔ MarginBox tree id
  steps : (chains.flatMap Chain.boxes).length = Set.ncard {id | MarginBox tree id}
  /-- Every loop ends where margins no longer adjoin, none at a box with a value. -/
  ends : ∀ chain ∈ chains, chain.ends = .separated ∨ chain.ends = .childless

/-- Chains that share no box are linear work. -/
theorem linearWork_of {chains : List Chain} (nodup : (chains.flatMap Chain.boxes).Nodup)
    (appended : ∀ id, id ∈ chains.flatMap Chain.boxes ↔ MarginBox tree id)
    (ends : ∀ chain ∈ chains, chain.ends = .separated ∨ chain.ends = .childless) : LinearWork tree chains where
  nodup := nodup
  appended := appended
  steps := by
    have hset : {id | MarginBox tree id} = ((chains.flatMap Chain.boxes).toFinset : Set BoxId) := by
      ext id
      simp only [Set.mem_ofPred_eq, List.coe_toFinset, appended]
    rw [hset, Set.ncard_coe_finset, List.toFinset_card_of_nodup nodup]
  ends := ends

/-- The layout walk of a tree that box generation can make returns, and the work of its margin chains is linear. -/
theorem marginChains_linear (Γ : FloatOps) (shape : Shaper) (viewport : Size) (hgen : tree.Generated document) :
    (∃ n, (walkStates Γ shape tree document viewport n).isSome) ∧
      ∀ n states, walkStates Γ shape tree document viewport n = some states →
        ∀ side, LinearWork tree (states.flatMap fun s => (chainAt Γ tree side s).toList) := by
  have inv := hgen.invariant
  obtain ⟨root, hroot⟩ := hgen.root
  unfold walkStates
  rw [hroot]
  cases hk : isBlockContainer tree tree.root with
  | false =>
    refine ⟨⟨0, rfl⟩, ?_⟩
    rintro n states ⟨⟩ side
    -- the root has no block-level box below it
    have hnone : ∀ id, ¬MarginBox tree id := by
      intro id hid
      rcases Relation.ReflTransGen.cases_tail (hid.blockChild hgen) with h | ⟨c, -, hcontainer, -⟩
      · exact hid.1 h.symm
      · rw [hk] at hcontainer
        cases hcontainer
    refine linearWork_of List.nodup_nil ?_ ?_
    · intro id
      exact ⟨fun h => absurd h List.not_mem_nil, fun h => absurd h (hnone id)⟩
    · intro chain hchain
      exact absurd hchain List.not_mem_nil
  | true =>
    constructor
    · obtain ⟨F, hroots, hF⟩ := inv.exists_forest
      obtain ⟨fragments, error, hrun, -, -⟩ := run_outline Γ shape document viewport hroot hroots hF
      unfold run at hrun
      simp only [hroot, hk, if_true] at hrun
      obtain ⟨n, hn⟩ := While.exists_run hrun
      exact ⟨n, by simp [hn]⟩
    · intro n states hstates side
      obtain ⟨r, hrun, rfl⟩ := Option.map_eq_some_iff.1 hstates
      have hstep : ∀ s s' chains, WorkInv Γ tree viewport side s chains →
          runStep Γ shape tree document viewport s = .inl s' →
            WorkInv Γ tree viewport side s' (chains ++ (chainAt Γ tree side s).toList) := by
        rintro s s' chains ⟨path, hw, hdone, hchains⟩ hb
        have ha := advances_of_runStep hb
        obtain ⟨path', hw'⟩ := hw.step inv ha
        exact ⟨path', hw', hdone.step inv hw ha, hchains.step side hgen hw ha⟩
      have hstart : WorkInv Γ tree viewport side (startState tree viewport root
          (resolveBoxModel Γ root.style viewport.w (some viewport.h))) [] := by
        refine ⟨_, WalkInv.start hroot hk, DoneInv.start root _, ?_⟩
        cases side <;> exact chainInv_new tree.len
      obtain ⟨s, chains, hwork, hreturn, hall⟩ := While.run_collect hstep hstart hrun
      obtain ⟨hplaced, hlast⟩ := hwork.all_placed hgen hreturn
      rw [List.nil_append, hlast, Option.toList_none, List.append_nil] at hall
      rw [hall]
      obtain ⟨-, -, -, hchains⟩ := hwork
      refine linearWork_of hchains.nodup ?_ hchains.ends
      intro id
      exact ⟨hchains.boxes id, fun hid => (hchains.valued id).2 (hplaced id hid)⟩

/-- The theorem for the document with the mixed margins. -/
theorem marginChains_linear_mixed :
    (∃ n, (walkStates .sample noText mixedTree mixedMargins.document window n).isSome) ∧
      ∀ n states, walkStates .sample noText mixedTree mixedMargins.document window n = some states →
        ∀ side, LinearWork mixedTree (states.flatMap fun s => (chainAt .sample mixedTree side s).toList) :=
  marginChains_linear .sample noText window (BoxGen.generated_of_build build_mixedMargins)

end Block

end ChromeLight
