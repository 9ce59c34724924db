import ChromeLight.Lemmas.Still
import ChromeLight.Outline

/-!
# The layout walk follows the outline

The walk returns, and what it returns is in post-order the outline of the box tree (`run_outline`): the fragments it appends
for a forest of boxes are those of the recursion over the forest (`walk_children`), by induction on the forest. A relative
position moves rects only, so it has no part in this.
-/

namespace ChromeLight

open Postorder (Stored)

/-! ## Appending fragments -/

namespace Arenas

variable {a b : Arenas}

/-- Entries stay as fragments are pushed. -/
theorem entry_push_of_some {id : FragmentId} {x : FragmentData × List FragmentId} (h : a.entry id = some x)
    (style : LayoutStyle) (f : StyleId → Fragment) : (a.push style f).2.entry id = some x := by
  obtain ⟨fragment, hf, hs⟩ := Option.bind_eq_some_iff.1 h
  obtain ⟨st, hst, rfl⟩ := Option.map_eq_some_iff.1 hs
  have hf' : (a.fragments ++ [f ⟨a.styles.length⟩])[id.index]? = _ :=
    (List.getElem?_append_left (List.getElem?_eq_some_iff.1 hf).1).trans hf
  have hst' : (a.styles ++ [style])[_]? = _ := (List.getElem?_append_left (List.getElem?_eq_some_iff.1 hst).1).trans hst
  simp only [Arenas.entry, Arenas.push, hf', Option.bind_some, hst', Option.map_some]

/-- The entry of a fragment that is pushed. -/
theorem entry_push_new (a : Arenas) (style : LayoutStyle) (f : StyleId → Fragment)
    (hstyle : (f ⟨a.styles.length⟩).style = ⟨a.styles.length⟩) :
    (a.push style f).2.entry ⟨a.fragments.length⟩
      = some (⟨(f ⟨a.styles.length⟩).node, (f ⟨a.styles.length⟩).kind.unplaced, style⟩, (f ⟨a.styles.length⟩).children) := by
  simp only [Arenas.entry, Arenas.push, List.getElem?_concat_length, Option.bind_some, hstyle, Option.map_some]

/-- Entries do not tell where rects are. -/
theorem entry_eq_of_still (hf : a.fragments.map Fragment.still = b.fragments.map Fragment.still) (hs : a.styles = b.styles) :
    a.entry = b.entry := by
  funext id
  have h := congrArg (·[id.index]?) hf
  simp only [List.getElem?_map] at h
  unfold Arenas.entry
  rw [hs]
  cases ha : a.fragments[id.index]? with
  | none =>
    rw [ha] at h
    rw [Option.map_eq_none_iff.1 h.symm]
  | some f =>
    rw [ha] at h
    obtain ⟨g, hb, hfg⟩ := Option.map_eq_some_iff.1 h.symm
    obtain ⟨⟩ := f
    obtain ⟨⟩ := g
    simp only [Fragment.still, Fragment.mk.injEq] at hfg
    obtain ⟨rfl, rfl, -, -, -, rfl, rfl⟩ := hfg
    rw [hb]
    rfl

end Arenas

/-- Layout appended a forest of fragments to an arena, and returned the ids of its roots. -/
structure Lays (a : Arenas) (F : Forest FragmentData) (r : List FragmentId × Arenas) : Prop where
  ids : r.1 = (Postorder.ids FragmentId.mk a.fragments.length F).roots
  length : r.2.fragments.length = a.fragments.length + F.size
  kept : ∀ id x, a.entry id = some x → r.2.entry id = some x
  stored : Stored FragmentId.mk r.2.entry a.fragments.length F

namespace Lays

variable {a b : Arenas} {F G K : Forest FragmentData} {ids : List FragmentId}

/-- Nothing lays nothing. -/
theorem nil (a : Arenas) : Lays a .nil ([], a) := ⟨rfl, rfl, fun _ _ h => h, trivial⟩

/-- What is laid one after another is laid side by side. -/
theorem append {r : List FragmentId × Arenas} (h : Lays a F (ids, b)) (h' : Lays b G r) :
    Lays a (F ++ G) (ids ++ r.1, r.2) where
  ids := by rw [Postorder.ids_append, Forest.roots_append, ← h.ids, ← h.length, ← h'.ids]
  length := by rw [h'.length, h.length, Forest.size_append, Nat.add_assoc]
  kept id x hx := h'.kept id x (h.kept id x hx)
  stored := Postorder.stored_append.2 ⟨h.stored.mono h'.kept, h.length ▸ h'.stored⟩

/-- A fragment around a forest. -/
theorem node (h : Lays a K (ids, b)) (d : FragmentData) (f : StyleId → Fragment)
    (hf : (f ⟨b.styles.length⟩).node = d.node ∧ (f ⟨b.styles.length⟩).kind.unplaced = d.kind ∧
      (f ⟨b.styles.length⟩).style = ⟨b.styles.length⟩ ∧ (f ⟨b.styles.length⟩).children = ids) :
    Lays a (.cons d K .nil) ([(b.push d.style f).1], (b.push d.style f).2) where
  ids := congrArg (fun n => [FragmentId.mk n]) h.length
  length := by
    simp only [Arenas.push, List.length_append, List.length_singleton, h.length, Forest.size]
    omega
  kept id x hx := Arenas.entry_push_of_some (h.kept id x hx) d.style f
  stored := by
    obtain ⟨hnode, hkind, hstyle, hchildren⟩ := hf
    refine ⟨?_, h.stored.mono fun id x hx => Arenas.entry_push_of_some hx d.style f, trivial⟩
    have hnew := Arenas.entry_push_new b d.style f hstyle
    rw [hnode, hkind, hchildren, h.length] at hnew
    rw [hnew, ← h.ids]

/-- Moving rects changes nothing. -/
theorem of_still {b' : Arenas} (h : Lays a F (ids, b))
    (hf : b.fragments.map Fragment.still = b'.fragments.map Fragment.still) (hs : b.styles = b'.styles) :
    Lays a F (ids, b') := by
  have hentry := Arenas.entry_eq_of_still hf hs
  have hlen := congrArg List.length hf
  simp only [List.length_map] at hlen
  exact ⟨h.ids, hlen.symm.trans h.length, hentry ▸ h.kept, hentry ▸ h.stored⟩

end Lays

/-! ## Lines -/

namespace Inline

/-- A text fragment is laid. -/
theorem pushText_lays (args : InlineArgs) (items : List InlineItem) (line : LineBox) (lineTop : Au) (group : RunGroup)
    (a : Arenas) : Lays a (.cons (textData args.containerStyle items group) .nil .nil)
      ([(pushText args items line lineTop group a).1], (pushText args items line lineTop group a).2) := by
  refine (Lays.nil a).node (textData args.containerStyle items group) _ ⟨rfl, ?_, rfl, rfl⟩
  simp only [FragmentKind.unplaced, textData, List.map_map]
  rfl

/-- The texts of a line are laid. -/
theorem pushTexts_lays (args : InlineArgs) (items : List InlineItem) (line : LineBox) (lineTop : Au)
    (groups : List RunGroup) (a : Arenas) :
    Lays a (textsOutline args.containerStyle items groups) (pushTexts args items line lineTop groups a) := by
  induction groups generalizing a with
  | nil => exact Lays.nil a
  | cons group groups ih => exact (pushText_lays args items line lineTop group a).append (ih _)

/-- A line is laid with its texts. -/
theorem pushLine_lays (args : InlineArgs) (items : List InlineItem) (line : LineBox) (cursorY : Au) (a : Arenas) :
    Lays a (.cons ⟨none, .line, args.containerStyle⟩ (textsOutline args.containerStyle items (groupRuns line)) .nil)
      ([(pushLine args items line cursorY a).1], (pushLine args items line cursorY a).2) :=
  (pushTexts_lays args items line _ (groupRuns line) a).node ⟨none, .line, args.containerStyle⟩ _ ⟨rfl, rfl, rfl, rfl⟩

/-- The lines of a leaf are laid. -/
theorem buildFragments_lays (args : InlineArgs) (items : List InlineItem) (lines : List LineBox) (cursorY : Au) (a : Arenas) :
    Lays a (linesOutline args.containerStyle items lines)
      ((buildFragments args items lines cursorY a).1.1, (buildFragments args items lines cursorY a).2) := by
  induction lines generalizing cursorY a with
  | nil => exact Lays.nil a
  | cons line lines ih => exact (pushLine_lays args items line cursorY a).append (ih _ _)

end Inline

/-- The forest of a box tree from its root. -/
theorem BoxTree.Invariant.exists_forest {tree : BoxTree} {document : Document} (inv : tree.Invariant document) :
    ∃ F : Forest BoxId, F.roots = [tree.root] ∧ F.Follows tree.kids := by
  have hlt : ∀ {c p : BoxId}, Relation.TransGen (Forest.Child tree.kids) c p → c.index < p.index := by
    intro c p h
    have step : ∀ {c p : BoxId}, Forest.Child tree.kids c p → c.index < p.index := by
      intro c p h
      obtain ⟨b, hb, hc⟩ := BoxTree.mem_kids.1 h
      exact (inv.resolves p b hb c hc).1
    induction h with
    | single h => exact step h
    | tail _ h ih => exact Nat.lt_trans ih (step h)
  have hfin : ∀ id, tree.kids id ≠ [] → id ∈ (List.range tree.len).map BoxId.mk := by
    intro id hk
    cases hg : tree.get id with
    | none => exact absurd (by simp [BoxTree.kids, hg]) hk
    | some b =>
      exact List.mem_map.2 ⟨id.index, List.mem_range.2 (List.getElem?_eq_some_iff.1 hg).1, rfl⟩
  have wf := Forest.wellFounded_child_of_acyclic _ hfin fun id h => Nat.lt_irrefl _ (hlt h)
  exact Forest.exists_follows wf [tree.root]

/-! ## Blocks -/

namespace Block

variable {Γ : FloatOps} {shape : Shaper} {tree : BoxTree} {document : Document} {viewport : Size}

/-- The fragment of a finished block around the fragments of its children. -/
theorem push_lays (Γ : FloatOps) (b : Finished) (kind : BoxKind) (hk : b.isAnonymousBlock = isAnonymous kind) {a a' : Arenas}
    {K : Forest FragmentData} (h : Lays a K (b.children, a')) :
    Lays a (.cons ⟨b.node, blockKind kind, b.style⟩ K .nil) ([(b.push Γ a').1], (b.push Γ a').2) := by
  have hnode := h.node ⟨b.node, blockKind kind, b.style⟩ b.fragment ⟨rfl, by
    simp only [Finished.fragment, hk, blockKind]
    split <;> rfl, rfl, rfl⟩
  by_cases hp : b.style.position = .relative
  · simp only [Finished.push, if_pos hp]
    exact hnode.of_still (map_shiftFrom _ _ _ _).symm rfl
  · simp only [Finished.push, if_neg hp]
    exact hnode

/-- The content of a leaf is laid. -/
theorem leafContent_lays (child : LayoutBox) (placement : ChildPlacement) (a : Arenas) (error : Option LayoutError) :
    Lays a (leafOutline shape tree document child placement.model.contentWidth)
      ((leafContent shape tree document child placement a error).1.1.1,
        (leafContent shape tree document child placement a error).1.2) := by
  unfold leafContent leafOutline shapedLines
  split
  · exact Lays.nil a
  · simp only [Inline.layout]
    cases shape (Inline.collectPieces tree document tree.len child.children true) child.style placement.model.contentWidth with
    | error e => exact Lays.nil a
    | ok lines =>
      exact Inline.buildFragments_lays ⟨child.children, child.style, contentOriginOf placement.origin placement.model,
        placement.model.contentWidth⟩ (Inline.collectPieces tree document tree.len child.children true) lines .zero a

/-- A leaf is laid with its content. -/
theorem layoutLeaf_lays (Γ : FloatOps) (shape : Shaper) (tree : BoxTree) (document : Document) (child : LayoutBox)
    (placement : ChildPlacement) (a : Arenas) (error : Option LayoutError) :
    let r := layoutLeaf Γ shape tree document child placement a error
    Lays a (.cons (blockData child) (leafOutline shape tree document child placement.model.contentWidth) .nil)
      ([r.1.1], r.2.1) :=
  push_lays Γ (finishedLeaf a.fragments.length child placement _ _) child.kind rfl
    (leafContent_lays child placement a error)

/-! ## The walk -/

/-- The frame after some more of its children were visited. -/
def Frame.visited (frame : Frame) (n : Nat) (ids : List FragmentId) (bottom : Au) (margin : Option Au) : Frame :=
  { frame with
    nextChild := frame.nextChild + n
    childrenFragIds := frame.childrenFragIds ++ ids
    runningContentBottom := bottom
    prevMarginBottom := margin }

/-- Going on to the next child. -/
theorem Frame.next_visited (frame : Frame) (n : Nat) (ids : List FragmentId) (bottom : Au) (margin : Option Au) :
    frame.next.visited n ids bottom margin = frame.visited (n + 1) ids bottom margin := by
  simp only [Frame.visited, Frame.next, Nat.add_assoc, Nat.add_comm 1 n]

/-- Taking a child that is done. -/
theorem Frame.childDone_visited (frame : Frame) (origin : Point) (usedHeight m : Au) (id : FragmentId) (n : Nat)
    (ids : List FragmentId) (bottom : Au) (margin : Option Au) :
    (frame.next.childDone origin usedHeight m id).visited n ids bottom margin
      = frame.visited (n + 1) (id :: ids) bottom margin := by
  simp only [Frame.visited, Frame.childDone, Frame.next, Nat.add_assoc, Nat.add_comm 1 n, List.append_assoc,
    List.singleton_append]

/-- The walk places the next children of its top frame as the outline says. -/
theorem walk_children (Γ : FloatOps) (shape : Shaper) (document : Document) (viewport : Size) (F : Forest BoxId)
    (hF : F.Follows tree.kids) (top : Frame) (before after : List BoxId)
    (hc : top.blockChildren = before ++ F.roots ++ after) (hn : top.nextChild = before.length) (stack : List Frame)
    (arenas : Arenas) (memo : MarginMemo) (error : Option LayoutError) :
    ∃ ids bottom margin arenas' memo' error',
      While.Steps (runStep Γ shape tree document viewport) ⟨top :: stack, arenas, memo, error⟩
        ⟨top.visited F.roots.length ids bottom margin :: stack, arenas', memo', error'⟩ ∧
      Lays arenas (outline Γ shape tree document top.contentWidth top.knownHeight F) (ids, arenas') := by
  induction F generalizing top before after stack arenas memo error with
  | nil =>
    refine ⟨[], top.runningContentBottom, top.prevMarginBottom, arenas, memo, error, ?_, Lays.nil arenas⟩
    have : top.visited (Forest.nil (α := BoxId)).roots.length [] top.runningContentBottom top.prevMarginBottom = top := by
      simp only [Frame.visited, Forest.roots, List.length_nil, Nat.add_zero, List.append_nil]
    rw [this]
    exact While.Steps.refl _
  | cons id K R ihK ihR =>
    obtain ⟨hK, hK', hR'⟩ := hF
    have hnext : top.blockChildren[top.nextChild]? = some id := by
      rw [hc, hn, List.append_assoc, List.getElem?_append_right (Nat.le_refl _), Nat.sub_self]
      rfl
    have hrest : top.blockChildren = (before ++ [id]) ++ R.roots ++ after := by
      rw [hc]
      simp only [Forest.roots, List.append_assoc, List.singleton_append]
    have hlen : top.nextChild + 1 = (before ++ [id]).length := by rw [hn, List.length_append, List.length_singleton]
    cases hg : tree.get id with
    | none =>
      obtain ⟨ids, bottom, margin, arenas', memo', error', hs, hl⟩ :=
        ihR hR' top.next (before ++ [id]) after hrest hlen stack arenas memo error
      refine ⟨ids, bottom, margin, arenas', memo', error', While.Steps.head ((Advances.missing hnext hg).runStep_eq viewport) ?_, ?_⟩
      · rwa [Frame.next_visited] at hs
      · rw [outline, hg]
        exact hl
    | some child =>
      have hkids : K.roots = child.children := by rw [hK, BoxTree.kids, hg]; rfl
      cases hk : isBlockContainer tree id with
      | true =>
        -- the child's own children, on a frame of its own
        obtain ⟨idsK, bottomK, marginK, arenasK, memoK, errorK, hsK, hlK⟩ := ihK hK'
          (containerFrame arenas.fragments.length child (placeChild Γ tree id child.style top.next memo).1) [] []
          (by rw [List.nil_append, List.append_nil, hkids]; rfl) rfl (top.next :: stack) arenas
          (placeChild Γ tree id child.style top.next memo).2 error
        set done := (containerFrame arenas.fragments.length child
          (placeChild Γ tree id child.style top.next memo).1).visited K.roots.length idsK bottomK marginK with hdone
        have hbox := push_lays Γ done.finished child.kind rfl (show Lays arenas _ (done.finished.children, arenasK) from hlK)
        obtain ⟨ids, bottom, margin, arenas', memo', error', hs, hl⟩ := ihR hR'
          (top.next.childDone done.borderBoxOrigin done.finished.borderBoxSize.h done.effectiveMarginBottomForParent
            (done.finished.push Γ arenasK).1) (before ++ [id]) after hrest hlen stack (done.finished.push Γ arenasK).2 memoK errorK
        refine ⟨(done.finished.push Γ arenasK).1 :: ids, bottom, margin, arenas', memo', error', ?_, ?_⟩
        · refine While.Steps.head ((Advances.container hnext hg hk).runStep_eq viewport) (hsK.trans ?_)
          refine While.Steps.head (Advances.runStep_eq (.finish ?_) viewport) ?_
          · rw [hdone]
            simp only [Frame.visited, containerFrame, hkids, Nat.zero_add, Nat.le_refl]
          · rwa [Frame.childDone_visited] at hs
        · have := hbox.append hl
          rw [outline, hg]
          simp only [hk, if_true]
          exact this
      | false =>
        rcases hr : layoutLeaf Γ shape tree document child (placeChild Γ tree id child.style top.next memo).1 arenas error
          with ⟨⟨fragId, usedHeight⟩, arenasL, errorL⟩
        have hbox := layoutLeaf_lays Γ shape tree document child (placeChild Γ tree id child.style top.next memo).1 arenas error
        simp only [hr] at hbox
        obtain ⟨ids, bottom, margin, arenas', memo', error', hs, hl⟩ := ihR hR'
          (top.next.childDone (placeChild Γ tree id child.style top.next memo).1.origin usedHeight
            (placeChild Γ tree id child.style top.next memo).1.effectiveMarginBottom fragId) (before ++ [id]) after hrest hlen
          stack arenasL (placeChild Γ tree id child.style top.next memo).2 errorL
        refine ⟨fragId :: ids, bottom, margin, arenas', memo', error', ?_, ?_⟩
        · refine While.Steps.head ((Advances.leaf hnext hg hk hr).runStep_eq viewport) ?_
          rwa [Frame.childDone_visited] at hs
        · have := hbox.append hl
          rw [outline, hg]
          simp only [hk, Bool.false_eq_true, if_false]
          exact this

/-- A fragment tree is an outline in post-order. -/
structure HasOutline (fragments : FragmentTree) (F : Forest FragmentData) : Prop where
  root : [fragments.root] = (Postorder.ids FragmentId.mk 0 F).roots
  len : fragments.len = F.size
  stored : Stored FragmentId.mk fragments.arenas.entry 0 F

/-- Layout of a tree whose root resolves returns, with the outline of the tree. -/
theorem run_outline (Γ : FloatOps) (shape : Shaper) (document : Document) (viewport : Size) {root : LayoutBox}
    (hroot : tree.get tree.root = some root) {F : Forest BoxId} (hroots : F.roots = [tree.root])
    (hF : F.Follows tree.kids) :
    ∃ fragments error, run Γ shape tree document viewport = .some (fragments, error) ∧ fragments.viewport = viewport ∧
      HasOutline fragments (outline Γ shape tree document viewport.w (some viewport.h) F) := by
  have hlays : ∀ {F : Forest FragmentData} {id : FragmentId} {a : Arenas}, Lays ⟨[], []⟩ F ([id], a) →
      HasOutline ⟨a.fragments, a.styles, id, viewport⟩ F := by
    intro F id a h
    exact ⟨h.ids, h.length.trans (Nat.zero_add _), h.stored⟩
  obtain ⟨K, rfl⟩ := Forest.eq_cons_of_roots hroots
  obtain ⟨hK, hK', -⟩ := hF
  have hkids : K.roots = root.children := by rw [hK, BoxTree.kids, hroot]; rfl
  unfold run
  simp only [hroot, outline]
  cases hk : isBlockContainer tree tree.root with
  | true =>
    simp only [if_true]
    obtain ⟨ids, bottom, margin, arenas, memo, error, hs, hl⟩ := walk_children Γ shape document viewport K hK'
      (rootFrame root ⟨(resolveBoxModel Γ root.style viewport.w (some viewport.h)).marginLeft,
        (resolveBoxModel Γ root.style viewport.w (some viewport.h)).marginTop⟩
        (resolveBoxModel Γ root.style viewport.w (some viewport.h)) viewport) [] []
      (by rw [List.nil_append, List.append_nil, hkids]; rfl) rfl [] ⟨[], []⟩ (.new tree.len) none
    set done := Frame.visited (rootFrame root ⟨(resolveBoxModel Γ root.style viewport.w (some viewport.h)).marginLeft,
        (resolveBoxModel Γ root.style viewport.w (some viewport.h)).marginTop⟩
        (resolveBoxModel Γ root.style viewport.w (some viewport.h)) viewport) K.roots.length ids bottom margin with hdone
    have hbox := push_lays Γ done.finished root.kind rfl (show Lays _ _ (done.finished.children, arenas) from hl)
    refine ⟨_, error, hs.loop_eq.trans (While.loop_inr ?_), ?_, hlays hbox⟩
    · have hge : ¬done.nextChild < done.blockChildren.length := by
        rw [hdone]
        simp only [Frame.visited, rootFrame, containerFrame, hkids, Nat.zero_add, Nat.lt_irrefl, not_false_eq_true]
      simp only [runStep, if_neg hge, finalizeTop]
    · rfl
  | false =>
    simp only [Bool.false_eq_true, if_false]
    exact ⟨_, _, rfl, rfl, hlays (layoutLeaf_lays Γ shape tree document root
      ⟨resolveBoxModel Γ root.style viewport.w (some viewport.h),
        ⟨(resolveBoxModel Γ root.style viewport.w (some viewport.h)).marginLeft,
          (resolveBoxModel Γ root.style viewport.w (some viewport.h)).marginTop⟩, .zero, viewport.w, some viewport.h⟩
      ⟨[], []⟩ none)⟩

namespace HasOutline

variable {fragments : FragmentTree} {F : Forest FragmentData}

/-- Ids at different positions are different. -/
theorem mk_injective : Function.Injective FragmentId.mk := by
  intro a b h
  exact congrArg FragmentId.index h

/-- The ids of the outline are those of the fragments. -/
theorem mem_ids_iff (h : HasOutline fragments F) {id : FragmentId} :
    id ∈ (Postorder.ids FragmentId.mk 0 F).preorder ↔ ∃ f, fragments.get id = some f := by
  rw [Postorder.mem_preorder_ids]
  constructor
  · rintro ⟨i, -, hi, rfl⟩
    rw [Nat.zero_add, ← h.len] at hi
    exact ⟨_, List.getElem?_eq_getElem hi⟩
  · rintro ⟨f, hf⟩
    have := (List.getElem?_eq_some_iff.1 hf).1
    exact ⟨id.index, Nat.zero_le _, by rw [Nat.zero_add, ← h.len]; exact this, rfl⟩

/-- The entry of a fragment that is there. -/
theorem entry_of_get (h : HasOutline fragments F) {id : FragmentId} {f : Fragment} (hf : fragments.get id = some f) :
    ∃ style, fragments.style f.style = some style ∧
      fragments.arenas.entry id = some (⟨f.node, f.kind.unplaced, style⟩, f.children) := by
  obtain ⟨x, hx⟩ := h.stored.exists_entry (h.mem_ids_iff.2 ⟨f, hf⟩)
  obtain ⟨f', hf', hs⟩ := Option.bind_eq_some_iff.1 hx
  obtain rfl := Option.some.inj (hf'.symm.trans hf)
  obtain ⟨style, hstyle, rfl⟩ := Option.map_eq_some_iff.1 hs
  exact ⟨style, hstyle, hx⟩

/-- The children of a fragment, by its entry. -/
theorem kids_eq (h : HasOutline fragments F) : Postorder.kids fragments.arenas.entry = fragments.kids := by
  funext id
  unfold Postorder.kids FragmentTree.kids
  cases hg : fragments.get id with
  | none =>
    have : fragments.arenas.entry id = none := by
      unfold Arenas.entry
      rw [show fragments.arenas.fragments[id.index]? = none from hg]
      rfl
    rw [this]
    rfl
  | some f =>
    obtain ⟨style, -, he⟩ := h.entry_of_get hg
    rw [he]
    rfl

/-- The forest of ids of a fragment tree with an outline. -/
theorem follows (h : HasOutline fragments F) : (Postorder.ids FragmentId.mk 0 F).Follows fragments.kids :=
  h.kids_eq ▸ h.stored.follows

/-- Children come before their parents. -/
theorem child_lt (h : HasOutline fragments F) {c p : FragmentId} (hc : c ∈ fragments.kids p) : c.index < p.index := by
  have hp : p ∈ (Postorder.ids FragmentId.mk 0 F).preorder := by
    rw [h.mem_ids_iff]
    cases hg : fragments.get p with
    | none => simp [FragmentTree.kids, hg] at hc
    | some f => exact ⟨f, rfl⟩
  exact h.stored.child_lt mk_injective (p := p.index) (c := c.index) hp (h.kids_eq ▸ hc)

end HasOutline

end Block

end ChromeLight
