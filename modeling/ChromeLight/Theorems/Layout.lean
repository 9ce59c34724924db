import ChromeLight.Lemmas.Overflow
import ChromeLight.Theorems.Relative

/-!
# Boxes and fragments

What the layout walk makes of a box tree (`LaidOut`): every block has exactly one fragment, the fragments of a container's
children are the children of the container's, in their order, and the fragments are a tree whose root comes last. The walk
returns with such a tree for every tree that box generation can make, and reaches neither of its fallbacks
(`run_laysOut`).
-/

namespace ChromeLight

open Forest (Child)
open Postorder (Stored)

/-- A box tree as box generation makes it: its boxes fit together, its root resolves, and no box is an anonymous inline
one. -/
structure BoxTree.Generated (document : Document) (tree : BoxTree) : Prop where
  invariant : tree.Invariant document
  root : ∃ root, tree.get tree.root = some root
  made : ∀ id b, Relation.ReflTransGen (Child tree.kids) id tree.root → tree.get id = some b → b.kind ≠ .anonymousInline

/-- Box generation makes such trees. -/
theorem BoxGen.generated_of_build {Γ : FloatOps} {doc : StyledDocument} {tree : BoxTree} (h : build Γ doc = .some tree) :
    tree.Generated doc.document := by
  have inv := invariant_of_build h
  obtain ⟨F, hroots, hF⟩ := inv.exists_forest
  obtain ⟨hmade, root, hroot, -⟩ := build_made h hroots hF
  refine ⟨inv, ⟨root, hroot⟩, ?_⟩
  intro id b hid hb
  obtain ⟨b', hb', -, hk⟩ := hmade id ((hF.mem_preorder_iff hroots id).2 hid)
  obtain rfl := Option.some.inj (hb.symm.trans hb')
  exact hk

/-- A shaper that reports no error. -/
def Shaper.Total (shape : Shaper) : Prop := ∀ items style width, ∃ lines, shape items style width = .ok lines

namespace Block

variable {Γ : FloatOps} {shape : Shaper} {tree : BoxTree} {document : Document} {viewport : Size} {fragments : FragmentTree}

/-- What the layout of a tree is. -/
structure LaidOut (tree : BoxTree) (fragments : FragmentTree) : Prop where
  /-- Every block below the root has exactly one fragment, with its node. -/
  block : ∀ id b, Relation.ReflTransGen (Child tree.kids) id tree.root → tree.get id = some b →
    b.kind = .block ∨ b.kind = .anonymousBlock → ∃ g f, (∀ g', FragmentOf tree fragments id g' ↔ g' = g) ∧
      fragments.get g = some f ∧ f.node = b.node ∧ f.kind = blockKind b.kind
  /-- No two boxes have the same fragment. -/
  apart : ∀ id id' g, FragmentOf tree fragments id g → FragmentOf tree fragments id' g → id = id'
  /-- There are no other blocks among the fragments. -/
  only : ∀ g f, fragments.get g = some f → f.kind = .block ∨ f.kind = .anonymousBlock → ∃ id, FragmentOf tree fragments id g
  /-- The children of a container's fragment are the fragments of the container's children, in their order. -/
  children : ∀ id g, FragmentOf tree fragments id g → isBlockContainer tree id = true →
    List.Forall₂ (FragmentOf tree fragments) (tree.kids id) (fragments.kids g)
  child_lt : ∀ p c, c ∈ fragments.kids p → c.index < p.index
  /-- Every fragment but the root is a child once. -/
  parent : ∀ g f, fragments.get g = some f → g ≠ fragments.root → ∃ p, ∀ q, g ∈ fragments.kids q ↔ q = p
  nodup : ∀ p, (fragments.kids p).Nodup
  last : fragments.root.index + 1 = fragments.len

/-! ## Blocks below the root -/

/-- A block below the root is a child of containers all the way. -/
theorem blockChild_of_reachable (hgen : tree.Generated document) {id : BoxId} {b : LayoutBox}
    (h : Relation.ReflTransGen (Child tree.kids) id tree.root) (hb : tree.get id = some b)
    (hkind : b.kind = .block ∨ b.kind = .anonymousBlock) :
    Relation.ReflTransGen (BlockChild tree) id tree.root := by
  have inv := hgen.invariant
  induction h using Relation.ReflTransGen.head_induction_on generalizing b with
  | refl => exact .refl
  | @head id p hc hp ih =>
    obtain ⟨pb, hpb, hmem⟩ := BoxTree.mem_kids.1 hc
    have hlevel : BoxGen.isBlockLevel b.kind = true := by
      rcases hkind with h | h <;> rw [h] <;> rfl
    obtain ⟨hpkind, hall⟩ := blockLevel_siblings inv hpb (hgen.made p pb hp hpb) hmem hb hlevel
    obtain ⟨first, rest, hcons⟩ := List.exists_cons_of_ne_nil (List.ne_nil_of_mem hmem)
    obtain ⟨d, hd, hfirst⟩ := hall first (hcons ▸ List.mem_cons_self)
    have hk : isBlockContainer tree p = true := by
      simp [isBlockContainer, firstBlockChild, blockLevelChild, hpb, hcons, hd, hfirst]
    exact .head ⟨hk, hc⟩ (ih hpb hpkind)

/-! ## The fragments of boxes -/

theorem length_roots_outline (Γ : FloatOps) (shape : Shaper) (document : Document) (w : Au) (h : Option Au) (F : Forest BoxId)
    (hres : ∀ id ∈ F.roots, ∃ b, tree.get id = some b) :
    (outline Γ shape tree document w h F).roots.length = F.roots.length := by
  induction F with
  | nil => rfl
  | cons id K R _ ihR =>
    obtain ⟨b, hb⟩ := hres id List.mem_cons_self
    simp only [outline, hb, Forest.roots, List.length_cons, ihR fun x hx => hres x (List.mem_cons_of_mem _ hx)]

theorem length_roots_ids {α ι : Type*} (mk : Nat → ι) (start : Nat) (F : Forest α) :
    (Postorder.ids mk start F).roots.length = F.roots.length := by
  induction F generalizing start with
  | nil => rfl
  | cons a K R _ ihR => simp only [Postorder.ids, Forest.roots, List.length_cons, ihR]

theorem linesOutline_kind (style : LayoutStyle) (items : List InlineItem) (lines : List LineBox) :
    ∀ d ∈ (Inline.linesOutline style items lines).preorder, d.kind = .line ∨ ∃ runs, d.kind = .text runs := by
  have texts : ∀ groups, ∀ d ∈ (Inline.textsOutline style items groups).preorder, ∃ runs, d.kind = .text runs := by
    intro groups
    induction groups with
    | nil => exact fun d hd => absurd hd List.not_mem_nil
    | cons group groups ih =>
      intro d hd
      rcases List.mem_cons.1 hd with rfl | hd
      · exact ⟨_, rfl⟩
      · exact ih d hd
  induction lines with
  | nil => exact fun d hd => absurd hd List.not_mem_nil
  | cons line lines ih =>
    intro d hd
    rcases List.mem_cons.1 hd with rfl | hd
    · exact .inl rfl
    · rcases List.mem_append.1 hd with hd | hd
      · exact .inr (texts _ d hd)
      · exact ih d hd

section

variable (inv : tree.Invariant document) {root : LayoutBox} (hroot : tree.get tree.root = some root) {B : Forest BoxId}
  (hroots : B.roots = [tree.root]) (hB : B.Follows tree.kids)
  (ho : HasOutline fragments (outline Γ shape tree document viewport.w (some viewport.h) B))
include inv hroot hroots hB ho

/-- A fragment of a block has the block's data; that of a container has a child for each child of the container. -/
theorem get_of_fragmentOf {id : BoxId} {g : FragmentId} (hg : FragmentOf tree fragments id g) :
    ∃ b f, tree.get id = some b ∧ fragments.get g = some f ∧ f.node = b.node ∧ f.kind = blockKind b.kind ∧
      (isBlockContainer tree id = true → (fragments.kids g).length = (tree.kids id).length) := by
  obtain ⟨w, h, K, start, hcb, ⟨hK, hK', -⟩, hids, hst⟩ := outline_of_fragmentOf inv hroot hroots hB ho hg
  obtain ⟨b, hb⟩ := hcb.resolves inv hroot
  simp only [outline, hb] at hids hst
  obtain ⟨he, -⟩ := hst
  rw [List.head_eq_of_cons_eq hids] at he
  obtain ⟨f, hf, hs⟩ := Option.bind_eq_some_iff.1 he
  obtain ⟨style, -, hdata⟩ := Option.map_eq_some_iff.1 hs
  simp only [blockData, Prod.mk.injEq, FragmentData.mk.injEq] at hdata
  obtain ⟨⟨hnode, hkind, -⟩, hchildren⟩ := hdata
  refine ⟨b, f, hb, hf, hnode, ?_, fun hk => ?_⟩
  · rcases blockKind_eq b.kind with h | h
    · rw [h] at hkind ⊢
      exact unplaced_eq_block.1 hkind
    · rw [h] at hkind ⊢
      exact unplaced_eq_anonymousBlock.1 hkind
  · have hkids : fragments.kids g = f.children := Paint.kids_eq hf
    rw [hkids, hchildren, length_roots_ids, if_pos hk, length_roots_outline, hK]
    intro c hc
    rw [hK] at hc
    obtain ⟨b', hb', hmem⟩ := BoxTree.mem_kids.1 hc
    exact (inv.resolves _ _ hb' _ hmem).2

theorem children_of_fragmentOf {id : BoxId} {g : FragmentId} (hg : FragmentOf tree fragments id g)
    (hk : isBlockContainer tree id = true) : List.Forall₂ (FragmentOf tree fragments) (tree.kids id) (fragments.kids g) := by
  obtain ⟨b, f, -, -, -, -, hlen⟩ := get_of_fragmentOf inv hroot hroots hB ho hg
  refine List.forall₂_iff_get.2 ⟨(hlen hk).symm, ?_⟩
  intro i h1 h2
  exact .child hg hk (List.getElem?_eq_getElem h1) (List.getElem?_eq_getElem h2)

theorem exists_fragmentOf {id : BoxId} (h : Relation.ReflTransGen (BlockChild tree) id tree.root) :
    ∃ g, FragmentOf tree fragments id g := by
  induction h using Relation.ReflTransGen.head_induction_on with
  | refl => exact ⟨_, .root⟩
  | head hc _ ih =>
    obtain ⟨g, hg⟩ := ih
    obtain ⟨hk, hmem⟩ := hc
    obtain ⟨k, hlt, rfl⟩ := List.getElem_of_mem hmem
    obtain ⟨b, f, -, -, -, -, hlen⟩ := get_of_fragmentOf inv hroot hroots hB ho hg
    exact ⟨_, .child hg hk (List.getElem?_eq_getElem hlt) (List.getElem?_eq_getElem (hlen hk ▸ hlt))⟩

/-- A box has at most one fragment. -/
theorem FragmentOf.unique {id : BoxId} {g g' : FragmentId} (h : FragmentOf tree fragments id g)
    (h' : FragmentOf tree fragments id g') : g = g' := by
  have not_root : ∀ {p : BoxId} {g : FragmentId} {k : Nat}, FragmentOf tree fragments p g →
      (tree.kids p)[k]? ≠ some tree.root := by
    intro p g k hp hc
    obtain ⟨w, h, K, start, hcb, -⟩ := outline_of_fragmentOf inv hroot hroots hB ho hp
    obtain ⟨b, hb, hmem⟩ := BoxTree.mem_kids.1 (List.mem_of_getElem? hc)
    exact hcb.ne_root inv hb hmem rfl
  induction h generalizing g' with
  | root =>
    cases h' with
    | root => rfl
    | child hp _ hc => exact absurd hc (not_root hp)
  | @child p c g g1 k hp _ hc hg ih =>
    cases h' with
    | root => exact absurd hc (not_root hp)
    | @child p' _ g' _ k' hp' _ hc' hg' =>
      obtain rfl := inv.uniqueParents.parent _ _ _ (List.mem_of_getElem? hc) (List.mem_of_getElem? hc')
      obtain rfl := ih hp'
      obtain rfl : k = k' := (List.getElem?_inj (List.getElem?_eq_some_iff.1 hc).1 (inv.uniqueParents.nodup p)).1
        (hc.trans hc'.symm)
      exact Option.some.inj (hg.symm.trans hg')

end

/-- A fragment belongs to at most one box. -/
theorem FragmentOf.injective {F : Forest FragmentData} (ho : HasOutline fragments F) {id id' : BoxId} {g : FragmentId}
    (h : FragmentOf tree fragments id g) (h' : FragmentOf tree fragments id' g) : id = id' := by
  have not_root : ∀ {p : FragmentId} {k : Nat}, (fragments.kids p)[k]? ≠ some fragments.root :=
    fun hc => ho.root_not_child _ (List.mem_of_getElem? hc)
  have hu := ho.wellFormed.uniqueParents
  induction h generalizing id' with
  | root =>
    generalize hr : fragments.root = r at h'
    cases h' with
    | root => rfl
    | child _ _ _ hg => exact absurd (hr ▸ hg) not_root
  | @child p c g g1 k hp _ hc hg ih =>
    cases h' with
    | root => exact absurd hg not_root
    | @child p' _ g' _ k' hp' _ hc' hg' =>
      obtain rfl := hu.parent _ _ _ (List.mem_of_getElem? hg) (List.mem_of_getElem? hg')
      obtain rfl := ih hp'
      obtain rfl : k = k' := (List.getElem?_inj (List.getElem?_eq_some_iff.1 hg).1 (hu.nodup g)).1 (hg.trans hg'.symm)
      exact Option.some.inj (hc.symm.trans hc')

/-- The blocks among the fragments of a forest of boxes are those of the boxes at and below its roots. -/
theorem fragmentOf_of_block (Γ : FloatOps) (shape : Shaper) (document : Document) (F : Forest BoxId) (hF : F.Follows tree.kids)
    (hres : ∀ id ∈ F.preorder, ∃ b, tree.get id = some b)
    (hkids : Postorder.kids fragments.arenas.entry = fragments.kids) (w : Au) (h : Option Au) (start : Nat)
    (hst : Stored FragmentId.mk fragments.arenas.entry start (outline Γ shape tree document w h F))
    (hroots : ∀ (k : Nat) id g, F.roots[k]? = some id →
      (Postorder.ids FragmentId.mk start (outline Γ shape tree document w h F)).roots[k]? = some g →
      FragmentOf tree fragments id g) :
    ∀ g ∈ (Postorder.ids FragmentId.mk start (outline Γ shape tree document w h F)).preorder, ∀ d children,
      fragments.arenas.entry g = some (d, children) → d.kind = .block ∨ d.kind = .anonymousBlock →
        ∃ id, FragmentOf tree fragments id g := by
  induction F generalizing w h start with
  | nil => exact fun g hg => absurd hg List.not_mem_nil
  | cons id K R ihK ihR =>
    obtain ⟨hK, hK', hR'⟩ := hF
    obtain ⟨b, hb⟩ := hres id List.mem_cons_self
    simp only [outline, hb] at hst hroots ⊢
    obtain ⟨he, hstK, hstR⟩ := hst
    have hid := hroots 0 id _ rfl rfl
    intro g hg d children hd hkind
    rcases List.mem_cons.1 hg with rfl | hg
    · exact ⟨id, hid⟩
    · rcases List.mem_append.1 hg with hg | hg
      · cases hk : isBlockContainer tree id with
        | true =>
          simp only [hk, if_true] at he hstK hg hid
          refine ihK hK' (fun x hx => hres x (List.mem_cons_of_mem _ (List.mem_append_left _ hx))) _ _ _ hstK ?_ g hg d children
            hd hkind
          intro k c g' hc hg'
          refine .child hid hk (hK ▸ hc) ?_
          rw [← hkids, Postorder.kids, he]
          exact hg'
        | false =>
          -- the fragments of inline content are no blocks
          simp only [hk, Bool.false_eq_true, if_false] at hstK hg
          have hmem := hstK.mem_preorder.2 ⟨g, hg, children, hd⟩
          rcases linesOutline_kind _ _ _ d hmem with h | ⟨runs, h⟩
          all_goals
            rw [h] at hkind
            rcases hkind with hkind | hkind <;> cases hkind
      · refine ihR hR' (fun x hx => hres x (List.mem_cons_of_mem _ (List.mem_append_right _ hx))) _ _ _ hstR ?_ g hg d children
          hd hkind
        exact fun k c g' hc hg' => hroots (k + 1) c g' hc hg'

/-! ## The layout -/

/-- The layout of a tree that box generation can make. -/
theorem HasOutline.laidOut (hgen : tree.Generated document) {B : Forest BoxId} (hroots : B.roots = [tree.root])
    (hB : B.Follows tree.kids) (ho : HasOutline fragments (outline Γ shape tree document viewport.w (some viewport.h) B)) :
    LaidOut tree fragments := by
  have inv := hgen.invariant
  obtain ⟨root, hroot⟩ := hgen.root
  have hu := ho.wellFormed.uniqueParents
  refine ⟨?_, ?_, ?_, ?_, fun p c => ho.child_lt, ?_, hu.nodup, ?_⟩
  · intro id b hid hb hkind
    obtain ⟨g, hg⟩ := exists_fragmentOf inv hroot hroots hB ho (blockChild_of_reachable hgen hid hb hkind)
    obtain ⟨b', f, hb', hf, hnode, hfkind, -⟩ := get_of_fragmentOf inv hroot hroots hB ho hg
    obtain rfl := Option.some.inj (hb.symm.trans hb')
    refine ⟨g, f, fun g' => ⟨fun hg' => hg'.unique inv hroot hroots hB ho hg, ?_⟩, hf, hnode, hfkind⟩
    rintro rfl
    exact hg
  · exact fun id id' g hg hg' => hg.injective ho hg'
  · intro g f hf hkind
    obtain ⟨style, -, he⟩ := ho.entry_of_get hf
    refine fragmentOf_of_block Γ shape document B hB ?_ ho.kids_eq _ _ _ ho.stored ?_ g (ho.mem_ids_iff.2 ⟨f, hf⟩) _ _ he
      (hkind.imp unplaced_eq_block.2 unplaced_eq_anonymousBlock.2)
    · intro id hid
      rcases Relation.ReflTransGen.cases_head ((hB.mem_preorder_iff hroots id).1 hid) with rfl | ⟨p, hc, -⟩
      · exact ⟨root, hroot⟩
      · obtain ⟨b, hb, hmem⟩ := BoxTree.mem_kids.1 hc
        exact (inv.resolves _ _ hb _ hmem).2
    · intro k id g hid hg
      rw [hroots] at hid
      rw [← ho.root] at hg
      cases k with
      | zero =>
        obtain rfl := Option.some.inj hid
        obtain rfl := Option.some.inj hg
        exact .root
      | succ k => cases hid
  · exact fun id g hg hk => children_of_fragmentOf inv hroot hroots hB ho hg hk
  · intro g f hf hne
    rcases Relation.ReflTransGen.cases_head (ho.reaches hf) with rfl | ⟨p, hc, -⟩
    · exact absurd rfl hne
    · refine ⟨p, fun q => ⟨fun hq => hu.parent _ _ _ hq hc, ?_⟩⟩
      rintro rfl
      exact hc
  · obtain ⟨K, rfl⟩ := Forest.eq_cons_of_roots hroots
    have hroot' := ho.root
    have hlen := ho.len
    simp only [outline, hroot] at hroot' hlen
    have hid := (List.cons.inj hroot').1
    rw [hid, hlen]
    simp only [Forest.size]
    omega

theorem layoutLeaf_error (htotal : shape.Total) (child : LayoutBox) (placement : ChildPlacement) (a : Arenas)
    (error : Option LayoutError) : (layoutLeaf Γ shape tree document child placement a error).2.2 = error := by
  show (leafContent shape tree document child placement a error).2 = error
  unfold leafContent
  split
  · rfl
  · obtain ⟨lines, hlines⟩ := htotal (Inline.collectPieces tree document tree.len child.children true) child.style
      placement.model.contentWidth
    simp only [Inline.layout, hlines]
    rfl

/-- No iteration makes an error out of nothing. -/
theorem Advances.error_eq (htotal : shape.Total) {s s' : LayoutState} (h : Advances Γ shape tree document s s') :
    s'.error = s.error := by
  cases h with
  | missing => rfl
  | container => rfl
  | @leaf top _ arenas _ memo error _ id child _ _ _ _ _ hl =>
    have herror := @layoutLeaf_error Γ shape tree document htotal child (placeChild Γ tree id child.style top.next memo).1
      arenas error
    rw [hl] at herror
    exact herror
  | finish => rfl

/-- Without an error of the shaper there is none. -/
theorem run_error (htotal : shape.Total) {error : Option LayoutError}
    (h : run Γ shape tree document viewport = .some (fragments, error)) : error = none := by
  unfold run at h
  cases hroot : tree.get tree.root with
  | none =>
    rw [hroot] at h
    exact (Prod.mk.inj (Part.some_injective h)).2.symm
  | some root =>
    simp only [hroot] at h
    split at h
    · obtain ⟨s, -, herror, hr⟩ := While.loop_invariant (I := fun s : LayoutState => s.error = none)
        (fun s s' hs hb => ((advances_of_runStep hb).error_eq htotal).trans hs) rfl h
      exact (error_of_runStep hr).trans herror
    · exact (Prod.mk.inj (Part.some_injective h)).2.symm.trans (layoutLeaf_error htotal _ _ _ _)

/-- The layout walk of a tree that box generation can make returns with all of the tree laid out, without an error unless the
shaper reports one; its root resolves, and its stack is never empty. -/
theorem run_laysOut (Γ : FloatOps) (htotal : shape.Total) (viewport : Size) (hgen : tree.Generated document) :
    (∃ fragments, run Γ shape tree document viewport = .some (fragments, none) ∧ LaidOut tree fragments) ∧
      tree.get tree.root ≠ none ∧ ∀ s, Reaches Γ shape tree document viewport s → s.stack ≠ [] := by
  have inv := hgen.invariant
  obtain ⟨root, hroot⟩ := hgen.root
  obtain ⟨B, hroots, hB⟩ := inv.exists_forest
  obtain ⟨fragments, error, hrun, -, ho⟩ := run_outline Γ shape document viewport hroot hroots hB
  obtain rfl := run_error htotal hrun
  refine ⟨⟨fragments, hrun, ho.laidOut hgen hroots hB⟩, by simp [hroot], ?_⟩
  rintro s ⟨root', hroot', hk, hsteps⟩ hnil
  obtain ⟨path, hw⟩ := walkInv_of_steps inv hroot' hk hsteps
  have hst := hw.stacked
  rw [hnil] at hst
  cases hst

theorem noText_total : noText.Total := fun _ _ _ => ⟨[], rfl⟩

/-- The theorem for the document with the mixed margins. -/
theorem run_laysOut_mixed :
    (∃ fragments, run .sample noText mixedTree mixedMargins.document window = .some (fragments, none) ∧
      LaidOut mixedTree fragments) ∧
    mixedTree.get mixedTree.root ≠ none ∧
      ∀ s, Reaches .sample noText mixedTree mixedMargins.document window s → s.stack ≠ [] :=
  run_laysOut .sample noText_total window (BoxGen.generated_of_build build_mixedMargins)

end Block

end ChromeLight
