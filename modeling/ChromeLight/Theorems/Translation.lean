import ChromeLight.Lemmas.Contiguous
import ChromeLight.Lemmas.Moves
import ChromeLight.Theorems.Layout

/-!
# Relative positioning moves rects

Compared with the layout in which no block is relative, relative positions change nothing but the origins of rects: every
fragment has its static place, moved by the offsets of the relative blocks around it (`Translated`). The walk moves a range
of its arena for each of them, which is the block's subtree (`push_contiguous`, `layoutLeaf_contiguous`), and none of the
places and sizes it computes meanwhile comes from a rect that was moved (`walk_moves`).
-/

namespace ChromeLight

open Forest (Child)
open Postorder (Stored branches branches_cons_cases)

namespace Block

variable {Γ : FloatOps} {shape : Shaper} {tree : BoxTree} {document : Document} {viewport : Size} {fragments : FragmentTree}

/-- The offsets of the blocks around a fragment, itself included, from the inside out; that of a static block is zero. -/
inductive Displacement (Γ : FloatOps) (tree : BoxTree) (viewport : Size) (fragments : FragmentTree) :
    FragmentId → List (Au × Au) → Prop where
  | root {b : LayoutBox} (hb : tree.get tree.root = some b) :
      Displacement Γ tree viewport fragments fragments.root [relativeOffset Γ b.style viewport.w (some viewport.h)]
  | block {c : BoxId} {b : LayoutBox} {w : Au} {h : Option Au} {g g' : FragmentId} {offs : List (Au × Au)}
      (hg : FragmentOf tree fragments c g') (hb : tree.get c = some b) (hcb : ContainingBlock Γ tree viewport c w h)
      (hkid : g' ∈ fragments.kids g) (hd : Displacement Γ tree viewport fragments g offs) :
      Displacement Γ tree viewport fragments g' (relativeOffset Γ b.style w h :: offs)
  /-- The one fragment of a tree whose root does not resolve. -/
  | empty (hnone : tree.get tree.root = none) : Displacement Γ tree viewport fragments fragments.root []
  /-- A line or a text. -/
  | inline {g g' : FragmentId} {offs : List (Au × Au)} (hno : ∀ c, ¬FragmentOf tree fragments c g')
      (hkid : g' ∈ fragments.kids g) (hd : Displacement Γ tree viewport fragments g offs) :
      Displacement Γ tree viewport fragments g' offs

/-- Adding up numbers of units saturates nowhere on the way. -/
def SumFits : Int → List Int → Prop
  | _, [] => True
  | x, d :: ds => (-2147483648 ≤ x + d ∧ x + d ≤ 2147483647) ∧ SumFits (x + d) ds

/-- A rect has been moved by offsets: its size is the same, and absent saturation its origin has moved by their sum. -/
def MovedBy (offs : List (Au × Au)) (r r' : Rect) : Prop :=
  r'.size = r.size ∧
  (SumFits r.origin.x.units (offs.map fun o => o.1.units) →
    r'.origin.x.units = r.origin.x.units + (offs.map fun o => o.1.units).sum) ∧
  (SumFits r.origin.y.units (offs.map fun o => o.2.units) →
    r'.origin.y.units = r.origin.y.units + (offs.map fun o => o.2.units).sum)

/-- A layout with relative positions, compared with the one without. -/
structure Translated (Γ : FloatOps) (tree : BoxTree) (viewport : Size) (fixed moved : FragmentTree) : Prop where
  root : moved.root = fixed.root
  len : moved.len = fixed.len
  fragment : ∀ t f, fixed.get t = some f → ∃ f' offs, moved.get t = some f' ∧
    Displacement Γ tree viewport moved t offs ∧
    (f'.node = f.node ∧ f'.kind = f.kind ∧ f'.style = f.style ∧ f'.children = f.children) ∧
    MovedBy offs f.borderBox f'.borderBox ∧ MovedBy offs f.paddingBox f'.paddingBox ∧ MovedBy offs f.contentBox f'.contentBox

/-! ## Moving one fragment -/

theorem movedBy_shiftRect (o : Au × Au) {offs : List (Au × Au)} {r r' : Rect} (h : MovedBy offs (shiftRect o.1 o.2 r) r') :
    MovedBy (o :: offs) r r' := by
  obtain ⟨hsize, hx, hy⟩ := h
  have axis : ∀ {a d b : Au} {ds : List Int}, (SumFits (a.saturatingAdd d).units ds →
      b.units = (a.saturatingAdd d).units + ds.sum) → SumFits a.units (d.units :: ds) → b.units = a.units + (d.units :: ds).sum := by
    intro a d b ds h hfits
    obtain ⟨hfit, hrest⟩ := hfits
    have hadd : (a.saturatingAdd d).units = a.units + d.units := Au.AddFits.units_saturatingAdd hfit
    rw [hadd] at h
    rw [h hrest, List.sum_cons, Int.add_assoc]
  exact ⟨hsize, axis hx, axis hy⟩

/-- Every part of a fragment moves by all of the offsets. -/
theorem settle_spec (offs : List (Au × Au)) (f : Fragment) :
    ((settle offs f).node = f.node ∧ (settle offs f).kind = f.kind ∧ (settle offs f).style = f.style ∧
      (settle offs f).children = f.children) ∧
    MovedBy offs f.borderBox (settle offs f).borderBox ∧ MovedBy offs f.paddingBox (settle offs f).paddingBox ∧
      MovedBy offs f.contentBox (settle offs f).contentBox := by
  induction offs generalizing f with
  | nil =>
    have same : ∀ r : Rect, MovedBy [] r r := fun r => ⟨rfl, fun _ => (Int.add_zero _).symm, fun _ => (Int.add_zero _).symm⟩
    exact ⟨⟨rfl, rfl, rfl, rfl⟩, same _, same _, same _⟩
  | cons o offs ih =>
    obtain ⟨hsame, hborder, hpadding, hcontent⟩ := ih (shiftFragment o.1 o.2 f)
    exact ⟨hsame, movedBy_shiftRect o hborder, movedBy_shiftRect o hpadding, movedBy_shiftRect o hcontent⟩

/-- Offsets of zero move nothing. -/
theorem settle_zero {offs : List (Au × Au)} (h : ∀ o ∈ offs, o = (.zero, .zero)) (f : Fragment) : settle offs f = f := by
  induction offs with
  | nil => rfl
  | cons o offs ih =>
    obtain rfl := h o List.mem_cons_self
    show settle offs (shiftFragment .zero .zero f) = f
    rw [shiftFragment_zero]
    exact ih fun o ho => h o (List.mem_cons_of_mem _ ho)

/-! ## The branches of a layout -/

theorem size_offsets (Γ : FloatOps) (shape : Shaper) (tree : BoxTree) (document : Document) (w : Au) (h : Option Au)
    (F : Forest BoxId) :
    (offsets Γ shape tree document w h F).size = (outline Γ shape tree document w h F).size := by
  induction F generalizing w h with
  | nil => rfl
  | cons id K R ihK ihR =>
    simp only [offsets, outline]
    cases tree.get id with
    | none => exact ihR w h
    | some b =>
      simp only [Forest.size, ihR]
      split
      · rw [ihK]
      · rw [← Forest.length_preorder, Forest.preorder_map, List.length_map, Forest.length_preorder]

/-- Without relative blocks all offsets are zero. -/
theorem branches_static (Γ : FloatOps) (shape : Shaper) (tree : BoxTree) (document : Document) (F : Forest BoxId)
    (hF : F.Follows tree.kids)
    (hstatic : ∀ r ∈ F.roots, ∀ id, Relation.ReflTransGen (BlockChild tree) id r → ∀ b, tree.get id = some b →
      b.style.position = .static) (w : Au) (h : Option Au) :
    ∀ branch ∈ branches (offsets Γ shape tree document w h F), ∀ o ∈ branch.flatten, o = (.zero, .zero) := by
  induction F generalizing w h with
  | nil => exact fun _ hb => absurd hb List.not_mem_nil
  | cons id K R ihK ihR =>
    obtain ⟨hK, hK', hR'⟩ := hF
    have hR := ihR hR' (fun r hr => hstatic r (List.mem_cons_of_mem _ hr)) w h
    cases hb : tree.get id with
    | none =>
      simp only [offsets, hb]
      exact hR
    | some b =>
      have hpos := hstatic id List.mem_cons_self id .refl b hb
      have hzero : relativeOffset Γ b.style w h = (.zero, .zero) := by
        rw [relativeOffset, hpos]
        exact if_neg (by decide)
      simp only [offsets, hb, hzero]
      intro branch hbranch o ho
      simp only [branches, List.mem_append, List.mem_map, List.mem_singleton] at hbranch
      rcases hbranch with (⟨branch', hbranch, rfl⟩ | rfl) | hbranch
      · rw [List.flatten_append, List.flatten_singleton, List.mem_append, List.mem_singleton] at ho
        rcases ho with ho | rfl
        · cases hk : isBlockContainer tree id with
          | true =>
            simp only [hk, if_true] at hbranch
            refine ihK hK' (fun r hr c hc => hstatic id List.mem_cons_self c (hc.tail ⟨hk, hK ▸ hr⟩)) _ _ branch' hbranch o ho
          | false =>
            simp only [hk, Bool.false_eq_true, if_false] at hbranch
            rw [flatten_of_branches_nil _ branch' hbranch] at ho
            cases ho
        · rfl
      · obtain rfl := List.mem_singleton.1 ho
        rfl
      · exact hR branch hbranch o ho

/-! ## The blocks around a fragment -/

theorem mem_kids_of_entry (hkids : Postorder.kids fragments.arenas.entry = fragments.kids) {g g' : FragmentId}
    {d : FragmentData} {children : List FragmentId} (he : fragments.arenas.entry g = some (d, children)) (hg : g' ∈ children) :
    g' ∈ fragments.kids g := by
  rw [← hkids, Postorder.kids, he]
  exact hg

/-- The lines and texts below a block have the displacement of the block. -/
theorem displacement_of_inline (hkids : Postorder.kids fragments.arenas.entry = fragments.kids) (D : Forest FragmentData)
    (hno : ∀ g' d children, fragments.arenas.entry g' = some (d, children) → d ∈ D.preorder →
      ∀ c, ¬FragmentOf tree fragments c g')
    {start : Nat} (hst : Stored FragmentId.mk fragments.arenas.entry start D) {g : FragmentId} {offs : List (Au × Au)}
    (hroots : ∀ g' ∈ (Postorder.ids FragmentId.mk start D).roots, g' ∈ fragments.kids g)
    (hd : Displacement Γ tree viewport fragments g offs) :
    ∀ g' ∈ (Postorder.ids FragmentId.mk start D).preorder, Displacement Γ tree viewport fragments g' offs := by
  induction D generalizing start g with
  | nil => exact fun _ hg => absurd hg List.not_mem_nil
  | cons d K R ihK ihR =>
    obtain ⟨he, hK, hR⟩ := hst
    have hself := Displacement.inline (hno _ _ _ he List.mem_cons_self) (hroots _ List.mem_cons_self) hd
    intro g' hg'
    rcases List.mem_cons.1 hg' with rfl | hg'
    · exact hself
    · rcases List.mem_append.1 hg' with hg' | hg'
      · refine ihK (fun g' d children he hd => hno g' d children he (List.mem_cons_of_mem _ (List.mem_append_left _ hd))) hK
          (fun g' hg' => mem_kids_of_entry hkids he hg') hself g' hg'
      · refine ihR (fun g' d children he hd => hno g' d children he (List.mem_cons_of_mem _ (List.mem_append_right _ hd))) hR
          (fun g' hg' => hroots g' (List.mem_cons_of_mem _ hg')) hd g' hg'

section

variable (inv : tree.Invariant document) {root : LayoutBox} (hroot : tree.get tree.root = some root) {B : Forest BoxId}
  (hB : B.roots = [tree.root]) (hfollows : B.Follows tree.kids)
  (ho : HasOutline fragments (outline Γ shape tree document viewport.w (some viewport.h) B))
include inv hroot hB hfollows ho

/-- The fragment of a block is no line and no text. -/
theorem not_fragmentOf_inline {g : FragmentId} {d : FragmentData} {children : List FragmentId}
    (he : fragments.arenas.entry g = some (d, children)) (hd : d.kind = .line ∨ ∃ runs, d.kind = .text runs) (c : BoxId) :
    ¬FragmentOf tree fragments c g := by
  intro hg
  obtain ⟨b, f, -, hf, -, hkind, -⟩ := get_of_fragmentOf inv hroot hB hfollows ho hg
  obtain ⟨style, -, he'⟩ := ho.entry_of_get hf
  obtain ⟨rfl, -⟩ := Prod.mk.inj (Option.some.inj (he.symm.trans he'))
  simp only [hkind] at hd
  rcases blockKind_eq b.kind with h | h
  all_goals
    rw [h] at hd
    rcases hd with hd | ⟨runs, hd⟩ <;> cases hd

/-- The branch of a fragment in the forest of offsets has the offsets of the blocks around the fragment. -/
theorem displacement_of_branches (F : Forest BoxId) (hF : F.Follows tree.kids) (w : Au) (h : Option Au) (start : Nat)
    (hst : Stored FragmentId.mk fragments.arenas.entry start (outline Γ shape tree document w h F)) (around : List (Au × Au))
    (hres : ∀ id ∈ F.roots, ∃ b, tree.get id = some b)
    (hroots : ∀ (k : Nat) id g, F.roots[k]? = some id →
      (Postorder.ids FragmentId.mk start (outline Γ shape tree document w h F)).roots[k]? = some g →
        FragmentOf tree fragments id g ∧ ContainingBlock Γ tree viewport id w h ∧ ∀ b, tree.get id = some b →
          Displacement Γ tree viewport fragments g (relativeOffset Γ b.style w h :: around))
    (i : Nat) (branch : List (List (Au × Au))) (hi : (branches (offsets Γ shape tree document w h F))[i]? = some branch) :
    Displacement Γ tree viewport fragments ⟨start + i⟩ (branch.flatten ++ around) := by
  induction F generalizing w h start around i branch with
  | nil => cases hi
  | cons id K R ihK ihR =>
    obtain ⟨hK, hK', hR'⟩ := hF
    obtain ⟨b, hb⟩ := hres id List.mem_cons_self
    simp only [outline, offsets, hb] at hst hroots hi
    obtain ⟨he, hstK, hstR⟩ := hst
    obtain ⟨hid, hcb, hself⟩ := hroots 0 id _ rfl rfl
    replace hself := hself b hb
    have hkids := ho.kids_eq
    have hR := ihR hR' w h _ hstR around (fun x hx => hres x (List.mem_cons_of_mem _ hx))
      fun k c g hc hg => hroots (k + 1) c g hc hg
    cases hk : isBlockContainer tree id with
    | true =>
      simp only [hk, if_true] at he hstK hR hid hself hi
      have hchildren : ∀ c ∈ K.roots, c ∈ b.children := by
        intro c hc
        rw [hK, BoxTree.kids, hb] at hc
        exact hc
      rcases branches_cons_cases hi with ⟨branch', hup, rfl⟩ | ⟨rfl, rfl⟩ | ⟨j, rfl, hj⟩
      · rw [List.flatten_append, List.flatten_singleton, List.append_assoc]
        refine ihK hK' _ _ start hstK _ (fun c hc => (inv.resolves id b hb c (hchildren c hc)).2) ?_ i branch' hup
        intro k c g hc hg
        have hcid : FragmentOf tree fragments c g := by
          refine .child hid hk (hK ▸ hc) ?_
          rw [← hkids, Postorder.kids, he]
          exact hg
        have hccb := hcb.child hb (hchildren c (List.mem_of_getElem? hc))
        exact ⟨hcid, hccb, fun b' hb' =>
          .block hcid hb' hccb (mem_kids_of_entry hkids he (List.mem_of_getElem? hg)) hself⟩
      · rw [size_offsets]
        exact hself
      · rw [size_offsets, ← Nat.add_assoc, ← Nat.add_assoc]
        exact hR j branch hj
    | false =>
      simp only [hk, Bool.false_eq_true, if_false] at he hstK hR hid hself hi
      have hsize : ((leafOutline shape tree document b (resolveBoxModel Γ b.style w h).contentWidth).map
          fun _ => ([] : List (Au × Au))).size
            = (leafOutline shape tree document b (resolveBoxModel Γ b.style w h).contentWidth).size := by
        rw [← Forest.length_preorder, Forest.preorder_map, List.length_map, Forest.length_preorder]
      rcases branches_cons_cases hi with ⟨branch', hup, rfl⟩ | ⟨rfl, rfl⟩ | ⟨j, rfl, hj⟩
      · rw [List.flatten_append, flatten_of_branches_nil _ branch' (List.mem_of_getElem? hup)]
        have hlt := (List.getElem?_eq_some_iff.1 hup).1
        rw [Postorder.length_branches, hsize] at hlt
        refine displacement_of_inline hkids _ (fun g' d children he hd => ?_) hstK
          (fun g' hg' => mem_kids_of_entry hkids he hg') hself _
          (Postorder.mem_preorder_ids.2 ⟨start + i, by omega, by omega, rfl⟩)
        exact not_fragmentOf_inline inv hroot hB hfollows ho he (linesOutline_kind _ _ _ d hd)
      · rw [hsize]
        exact hself
      · rw [hsize, ← Nat.add_assoc, ← Nat.add_assoc]
        exact hR j branch hj

/-- A fragment of the layout without positions has in the layout with positions its place and moved rects. -/
theorem fragment_of_settleAll {X : List Fragment}
    (hlen : X.length = (offsets Γ shape tree document viewport.w (some viewport.h) B).size)
    (hsettle : fragments.fragments = settleAll (offsets Γ shape tree document viewport.w (some viewport.h) B) X)
    {t : FragmentId} {f : Fragment} (hf : X[t.index]? = some f) :
    ∃ f' offs, fragments.get t = some f' ∧ Displacement Γ tree viewport fragments t offs ∧
      (f'.node = f.node ∧ f'.kind = f.kind ∧ f'.style = f.style ∧ f'.children = f.children) ∧
      MovedBy offs f.borderBox f'.borderBox ∧ MovedBy offs f.paddingBox f'.paddingBox ∧
        MovedBy offs f.contentBox f'.contentBox := by
  have hi := (List.getElem?_eq_some_iff.1 hf).1
  obtain ⟨branch, hbranch⟩ : ∃ branch,
      (branches (offsets Γ shape tree document viewport.w (some viewport.h) B))[t.index]? = some branch :=
    ⟨_, List.getElem?_eq_getElem (by rwa [Postorder.length_branches, ← hlen])⟩
  have hf' : fragments.get t = some (settle branch.flatten f) := by
    rw [FragmentTree.get, hsettle, settleAll, List.getElem?_zipWith, hbranch, hf]
  have hd := displacement_of_branches inv hroot hB hfollows ho B hfollows viewport.w (some viewport.h) 0 ho.stored [] ?_ ?_
    t.index branch hbranch
  · rw [List.append_nil, Nat.zero_add] at hd
    obtain ⟨hdata, hmoves⟩ := settle_spec branch.flatten f
    exact ⟨_, _, hf', hd, hdata, hmoves⟩
  · intro id hid
    rw [hB, List.mem_singleton] at hid
    exact ⟨root, hid ▸ hroot⟩
  · intro k id g hid hg
    rw [hB] at hid
    rw [← ho.root] at hg
    cases k with
    | zero =>
      obtain rfl := Option.some.inj hid
      obtain rfl := Option.some.inj hg
      exact ⟨.root, .root, fun b hb => .root hb⟩
    | succ k => cases hid

end

/-! ## Making blocks relative -/

theorem kids_still (tree : BoxTree) : tree.still.kids = tree.kids := by
  funext id
  simp only [BoxTree.kids, BoxTree.get_still]
  cases tree.get id <;> rfl

/-- No block of the tree that layout reaches is relative. -/
def AllStatic (tree : BoxTree) : Prop :=
  ∀ id b, Relation.ReflTransGen (BlockChild tree) id tree.root → tree.get id = some b → b.style.position = .static

/-- The layout of a tree without relative blocks is that of the tree without positions. -/
theorem run_static (Γ : FloatOps) (hs : shape.IgnoresPosition) (document : Document) (viewport : Size) (hstatic : AllStatic tree)
    {root : LayoutBox} (hroot : tree.get tree.root = some root) {F : Forest BoxId} (hroots : F.roots = [tree.root])
    (hF : F.Follows tree.kids) :
    ∃ fixed still error, run Γ shape tree document viewport = .some (fixed, error) ∧
      run Γ shape tree.still document viewport = .some (still, error) ∧ fixed.fragments = still.fragments := by
  obtain ⟨fixed, still, error, hfixed, hstill, hlen, hsettle⟩ := run_moves Γ hs document viewport hroot hroots hF
  refine ⟨fixed, still, error, hfixed, hstill, ?_⟩
  rw [hsettle]
  refine List.ext_getElem (by simp [settleAll, Postorder.length_branches, hlen]) ?_
  intro i h1 h2
  simp only [settleAll, List.getElem_zipWith]
  refine settle_zero (branches_static Γ shape tree document F hF ?_ _ _ _ (List.getElem_mem _)) _
  intro r hr id hid b hb
  rw [hroots, List.mem_singleton] at hr
  exact hstatic id b (hr ▸ hid) hb

/-- Making any of the blocks of a tree relative moves rects and changes nothing else: the fragments of the two layouts are the
same, but that each has moved by the offsets of the relative blocks around it. A block that is done moves the fragments since
it was begun, which are those at and below its own. -/
theorem relative_translates (Γ : FloatOps) (hs : shape.IgnoresPosition) (viewport : Size) (inv : tree.Invariant document)
    {base : BoxTree} (hstill : tree.still = base.still) (hstatic : AllStatic base) :
    (∃ fixed moved error, run Γ shape base document viewport = .some (fixed, error) ∧
      run Γ shape tree document viewport = .some (moved, error) ∧ Translated Γ tree viewport fixed moved) ∧
    (∀ s top, Reaches Γ shape tree document viewport s → s.stack.head? = some top →
      Contiguous top.fragStart (top.finished.push Γ s.arenas)) ∧
    ∀ child placement arenas error, let r := layoutLeaf Γ shape tree document child placement arenas error
      Contiguous arenas.fragments.length (r.1.1, r.2.1) := by
  refine ⟨?_, ?_, layoutLeaf_contiguous Γ shape tree document⟩
  · have hroot' : base.root = tree.root := by
      have h : tree.still.root = base.still.root := by rw [hstill]
      exact h.symm
    have hget : ∀ id, (base.get id).map LayoutBox.still = (tree.get id).map LayoutBox.still := by
      intro id
      rw [← BoxTree.get_still, ← BoxTree.get_still, hstill]
    cases hroot : tree.get tree.root with
    | none =>
      have hbase : base.get base.root = none := by
        have := hget tree.root
        rwa [hroot, Option.map_none, Option.map_eq_none_iff, ← hroot'] at this
      refine ⟨emptyTree Γ ⟨[], []⟩ viewport, emptyTree Γ ⟨[], []⟩ viewport, none, by simp only [run, hbase],
        by simp only [run, hroot], rfl, rfl, fun t f hf => ?_⟩
      obtain rfl : t = ⟨0⟩ := by
        have hlt := (List.getElem?_eq_some_iff.1 hf).1
        simp only [emptyTree, Arenas.push, List.nil_append, List.length_singleton, Nat.lt_one_iff] at hlt
        cases t
        exact congrArg FragmentId.mk hlt
      obtain ⟨hdata, hmoved⟩ := settle_spec [] f
      exact ⟨f, [], hf, .empty hroot, hdata, hmoved⟩
    | some root =>
      obtain ⟨b, hbase, -⟩ := Option.map_eq_some_iff.1 ((hget tree.root).trans (by rw [hroot]; rfl))
      rw [← hroot'] at hbase
      obtain ⟨B, hroots, hB⟩ := inv.exists_forest
      have hB' : B.Follows base.kids := by
        rw [← kids_still, ← hstill, kids_still]
        exact hB
      obtain ⟨moved, still, error, hmoved, hrun, hlen, hsettle⟩ := run_moves Γ hs document viewport hroot hroots hB
      obtain ⟨fixed, still', error', hfixed, hrun', hsame⟩ :=
        run_static Γ hs document viewport hstatic hbase (hroot' ▸ hroots) hB'
      rw [← hstill, hrun] at hrun'
      obtain ⟨rfl, rfl⟩ := Prod.mk.inj (Part.some_injective hrun')
      obtain ⟨hlike, -⟩ := run_alike hs hstill.symm hfixed hmoved
      obtain ⟨fragments, error', hrun, -, ho⟩ := run_outline Γ shape document viewport hroot hroots hB
      obtain ⟨rfl, rfl⟩ := Prod.mk.inj (Part.some_injective (hmoved.symm.trans hrun))
      have hr : moved.still.root = fixed.still.root := by rw [hlike]
      refine ⟨fixed, moved, error, hfixed, hmoved, hr, ?_, fun t f hf => ?_⟩
      · have := congrArg (fun fragments : FragmentTree => fragments.fragments.length) hlike
        simp only [FragmentTree.still, List.length_map] at this
        exact this.symm
      · exact fragment_of_settleAll inv hroot hroots hB ho (hsame ▸ hlen) (hsame ▸ hsettle) hf
  · rintro s top ⟨root, -, -, hsteps⟩ hhead
    exact push_contiguous hsteps hhead

theorem build_relative : BoxGen.build .sample (letter (offsetStyle .relative)) = some (letterTree (offsetStyle .relative)) :=
  BoxGen.build_of_run 12 (.fromIndex 1) (by decide) (by decide) (by decide)

theorem allStatic_letterTree : AllStatic (letterTree (offsetStyle .static)) := by
  intro id b _ hb
  obtain ⟨i⟩ := id
  rcases i with _ | _ | _ | i
  all_goals cases hb
  all_goals rfl

/-- The theorem for the letter in a `div` that moves ten pixels to the right. -/
theorem relative_translates_letter :
    (∃ fixed moved error,
      run .sample oneGlyph (letterTree (offsetStyle .static)) (letter (offsetStyle .relative)).document window
        = .some (fixed, error) ∧
      run .sample oneGlyph (letterTree (offsetStyle .relative)) (letter (offsetStyle .relative)).document window
        = .some (moved, error) ∧
      Translated .sample (letterTree (offsetStyle .relative)) window fixed moved) ∧
    (∀ s top, Reaches .sample oneGlyph (letterTree (offsetStyle .relative)) (letter (offsetStyle .relative)).document window s →
      s.stack.head? = some top → Contiguous top.fragStart (top.finished.push .sample s.arenas)) ∧
    ∀ child placement arenas error,
      let r := layoutLeaf .sample oneGlyph (letterTree (offsetStyle .relative)) (letter (offsetStyle .relative)).document child
        placement arenas error
      Contiguous arenas.fragments.length (r.1.1, r.2.1) :=
  relative_translates .sample oneGlyph_ignoresPosition window (BoxGen.invariant_of_build build_relative) (by decide)
    allStatic_letterTree

end Block

end ChromeLight
