import Mathlib.Data.Fintype.Card
import Mathlib.Data.Set.Finite.Basic
import Mathlib.Data.List.Nodup
import Mathlib.Data.List.Perm.Subperm
import Mathlib.Logic.Relation
import Mathlib.Order.WellFounded

/-!
# Ordered forests, and the forest an arena holds

An ordered forest in first-child/next-sibling form: a tree is its label, the forest of its children and the forest of its
right siblings. An arena is a table that gives every node the list of its children (`kids`); `Follows kids F` says that every
node of `F` has in `F` the children the arena gives it, so the forest from a list of roots is determined (`Follows.unique`).

Where the child relation is well-founded the forest exists (`exists_follows`), and where in addition no node has two parents
every node occurs in it once (`Follows.nodup`). A finite arena without cycles has a well-founded child relation
(`wellFounded_child_of_acyclic`).
-/

/-- An ordered forest: empty, or a first tree (its label and the forest of its children) and the rest. -/
inductive Forest (α : Type*) where
  | nil : Forest α
  | cons (a : α) (kids : Forest α) (rest : Forest α) : Forest α
deriving Repr, DecidableEq

namespace Forest

variable {α β : Type*}

/-- The labels of the roots, in order. -/
def roots : Forest α → List α
  | nil => []
  | cons a _ rest => a :: rest.roots

/-- The labels in depth-first pre-order. -/
def preorder : Forest α → List α
  | nil => []
  | cons a kids rest => a :: (kids.preorder ++ rest.preorder)

/-- The number of nodes. -/
def size : Forest α → Nat
  | nil => 0
  | cons _ kids rest => kids.size + rest.size + 1

/-- Two forests side by side. -/
def append : Forest α → Forest α → Forest α
  | nil, G => G
  | cons a kids rest, G => cons a kids (rest.append G)

instance : Append (Forest α) := ⟨append⟩

/-- The trees of a forest, each as its label and the forest below it. -/
def trees : Forest α → List (α × Forest α)
  | nil => []
  | cons a kids rest => (a, kids) :: rest.trees

/-- The forest of a list of trees. -/
def ofTrees : List (α × Forest α) → Forest α
  | [] => nil
  | (a, kids) :: rest => cons a kids (ofTrees rest)

/-- The same forest with other labels. -/
def map (f : α → β) : Forest α → Forest β
  | nil => nil
  | cons a kids rest => cons (f a) (kids.map f) (rest.map f)

/-- The same forest, every node with its depth: `down` is how much deeper than a node its children are. -/
def depths (down : α → Nat) : Nat → Forest α → Forest (α × Nat)
  | _, nil => nil
  | depth, cons a kids rest => cons (a, depth) (kids.depths down (depth + down a)) (rest.depths down depth)

/-- Every node of the forest has in it the children that `kids` gives. -/
def Follows (kids : α → List α) : Forest α → Prop
  | nil => True
  | cons a K R => K.roots = kids a ∧ K.Follows kids ∧ R.Follows kids

/-- The arena in which `entry` gives the label and the children of each id shows the forest below a list of ids. -/
def Shows {ι : Type*} (entry : ι → Option (α × List ι)) : List ι → Forest α → Prop
  | ids, nil => ids = []
  | ids, cons a K R => ∃ id rest children, ids = id :: rest ∧ entry id = some (a, children) ∧ Shows entry children K ∧
      Shows entry rest R

/-- Every node's label fits the labels of its children. -/
def Locally (P : α → List α → Prop) : Forest α → Prop
  | nil => True
  | cons a K R => P a K.roots ∧ K.Locally P ∧ R.Locally P

/-- `c` is a child of `p` in the arena. -/
def Child (kids : α → List α) (c p : α) : Prop := c ∈ kids p

/-- The nodes above a node, from the root down. -/
inductive Ancestors (kids : α → List α) (root : α) : α → List α → Prop where
  | root : Ancestors kids root root []
  | child {p c : α} {path : List α} (hp : Ancestors kids root p path) (hc : c ∈ kids p) :
      Ancestors kids root c (path ++ [p])

/-- No node of the arena has two parents, or the same parent twice. -/
structure UniqueParents (kids : α → List α) : Prop where
  parent : ∀ c p q, c ∈ kids p → c ∈ kids q → p = q
  nodup : ∀ p, (kids p).Nodup

/-! ## Roots, pre-order, size -/

@[simp] theorem nil_append (G : Forest α) : nil ++ G = G := rfl

@[simp] theorem cons_append (a : α) (K R G : Forest α) : cons a K R ++ G = cons a K (R ++ G) := rfl

@[simp] theorem roots_append (F G : Forest α) : (F ++ G).roots = F.roots ++ G.roots := by
  induction F with
  | nil => rfl
  | cons a K R _ ih => simp [roots, ih]

@[simp] theorem preorder_append (F G : Forest α) : (F ++ G).preorder = F.preorder ++ G.preorder := by
  induction F with
  | nil => rfl
  | cons a K R _ ih => simp [preorder, ih]

/-- A forest lists each of its nodes once. -/
theorem length_preorder (F : Forest α) : F.preorder.length = F.size := by
  induction F with
  | nil => rfl
  | cons a K R ihK ihR => simp [preorder, size, ihK, ihR]

/-- The nodes of two forests, side by side. -/
theorem size_append (F G : Forest α) : (F ++ G).size = F.size + G.size := by
  rw [← length_preorder, preorder_append, List.length_append, length_preorder, length_preorder]

@[simp] theorem roots_map (f : α → β) (F : Forest α) : (F.map f).roots = F.roots.map f := by
  induction F with
  | nil => rfl
  | cons a K R _ ih => simp [map, roots, ih]

@[simp] theorem preorder_map (f : α → β) (F : Forest α) : (F.map f).preorder = F.preorder.map f := by
  induction F with
  | nil => rfl
  | cons a K R ihK ihR => simp [map, preorder, ihK, ihR]

@[simp] theorem roots_depths (down : α → Nat) (depth : Nat) (F : Forest α) :
    (F.depths down depth).roots = F.roots.map fun a => (a, depth) := by
  induction F generalizing depth with
  | nil => rfl
  | cons a K R _ ih => simp [depths, roots, ih]

@[simp] theorem size_depths (down : α → Nat) (depth : Nat) (F : Forest α) : (F.depths down depth).size = F.size := by
  induction F generalizing depth with
  | nil => rfl
  | cons a K R ihK ihR => simp [depths, size, ihK, ihR]

/-- Roots are nodes of the forest. -/
theorem mem_preorder_of_mem_roots {F : Forest α} {x : α} (h : x ∈ F.roots) : x ∈ F.preorder := by
  induction F with
  | nil => exact absurd h List.not_mem_nil
  | cons a K R _ ih =>
    rcases List.mem_cons.1 h with rfl | h
    · exact List.mem_cons_self
    · exact List.mem_cons_of_mem _ (List.mem_append_right _ (ih h))

/-- Roots come in the order of the forest. -/
theorem roots_sublist_preorder (F : Forest α) : F.roots.Sublist F.preorder := by
  induction F with
  | nil => exact List.Sublist.slnil
  | cons a K R _ ih => exact (ih.trans (List.sublist_append_right _ _)).cons_cons a

@[simp] theorem append_nil (F : Forest α) : F ++ nil = F := by
  induction F with
  | nil => rfl
  | cons a K R _ ih => rw [cons_append, ih]

/-- Three forests, side by side. -/
theorem append_assoc (F G H : Forest α) : F ++ G ++ H = F ++ (G ++ H) := by
  induction F with
  | nil => rfl
  | cons a K R _ ih => rw [cons_append, cons_append, cons_append, ih]

/-- The trees of two forests, side by side. -/
theorem trees_append (F G : Forest α) : (F ++ G).trees = F.trees ++ G.trees := by
  induction F with
  | nil => rfl
  | cons a K R _ ih => simp [trees, ih]

/-- A forest is its trees. -/
theorem ofTrees_trees (F : Forest α) : ofTrees F.trees = F := by
  induction F with
  | nil => rfl
  | cons a K R _ ih => rw [trees, ofTrees, ih]

/-- A forest lists its trees one after another. -/
theorem preorder_ofTrees (l : List (α × Forest α)) : (ofTrees l).preorder = l.flatMap fun t => t.1 :: t.2.preorder := by
  induction l with
  | nil => rfl
  | cons t l ih => simp [ofTrees, preorder, ih]

/-- A forest with one root is a tree. -/
theorem eq_cons_of_roots {F : Forest α} {a : α} (h : F.roots = [a]) : ∃ K, F = cons a K nil := by
  cases F with
  | nil => cases h
  | cons b K R =>
    obtain ⟨rfl, hR⟩ := List.cons.inj h
    cases R with
    | nil => exact ⟨K, rfl⟩
    | cons => cases hR

/-! ## The forest of an arena -/

section Arena

variable {kids : α → List α}

/-- Only the empty forest has no roots. -/
theorem roots_eq_nil {F : Forest α} : F.roots = [] ↔ F = nil := by
  cases F with
  | nil => simp [roots]
  | cons a K R => simp [roots]

/-- Two forests that follow the children do so side by side. -/
theorem Follows.append {F G : Forest α} (hF : F.Follows kids) (hG : G.Follows kids) : (F ++ G).Follows kids := by
  induction F with
  | nil => exact hG
  | cons a K R _ ih => exact ⟨hF.1, hF.2.1, ih hF.2.2⟩

/-- With depths, the children of a node are its children, each with the depth they have. -/
theorem Follows.depths {F : Forest α} (h : F.Follows kids) (down : α → Nat) (depth : Nat) :
    (F.depths down depth).Follows fun x => (kids x.1).map fun c => (c, x.2 + down x.1) := by
  induction F generalizing depth with
  | nil => trivial
  | cons a K R ihK ihR =>
    obtain ⟨hK, hK', hR'⟩ := h
    exact ⟨by rw [roots_depths, hK], ihK hK' _, ihR hR' _⟩

/-- A forest follows every child relation that gives its nodes the same children. -/
theorem Follows.congr {kids' : α → List α} {F : Forest α} (h : F.Follows kids) (he : ∀ x ∈ F.preorder, kids x = kids' x) :
    F.Follows kids' := by
  induction F with
  | nil => trivial
  | cons a K R ihK ihR =>
    obtain ⟨hK, hK', hR'⟩ := h
    refine ⟨hK.trans (he a List.mem_cons_self), ihK hK' fun x hx => ?_, ihR hR' fun x hx => ?_⟩
    · exact he x (List.mem_cons_of_mem _ (List.mem_append_left _ hx))
    · exact he x (List.mem_cons_of_mem _ (List.mem_append_right _ hx))

/-- The forest an arena holds below a list of roots is determined. -/
theorem Follows.unique {F G : Forest α} (hF : F.Follows kids) (hG : G.Follows kids) (h : F.roots = G.roots) : F = G := by
  induction F generalizing G with
  | nil =>
    cases G with
    | nil => rfl
    | cons b L S => simp [roots] at h
  | cons a K R ihK ihR =>
    cases G with
    | nil => simp [roots] at h
    | cons b L S =>
      obtain ⟨rfl, hR⟩ := List.cons.inj h
      obtain ⟨hK, hK', hR'⟩ := hF
      obtain ⟨hL, hL', hS'⟩ := hG
      rw [ihK hK' hL' (hK.trans hL.symm), ihR hR' hS' hR]

/-- Every node of the forest is a root or below one. -/
theorem Follows.exists_root {F : Forest α} (h : F.Follows kids) {x : α} (hx : x ∈ F.preorder) :
    ∃ r ∈ F.roots, Relation.ReflTransGen (Child kids) x r := by
  induction F with
  | nil => exact absurd hx List.not_mem_nil
  | cons a K R ihK ihR =>
    obtain ⟨hK, hK', hR'⟩ := h
    rcases List.mem_cons.1 hx with rfl | hx
    · exact ⟨x, List.mem_cons_self, Relation.ReflTransGen.refl⟩
    · rcases List.mem_append.1 hx with hx | hx
      · obtain ⟨r, hr, hxr⟩ := ihK hK' hx
        exact ⟨a, List.mem_cons_self, hxr.tail (show r ∈ kids a from hK ▸ hr)⟩
      · obtain ⟨r, hr, hxr⟩ := ihR hR' hx
        exact ⟨r, List.mem_cons_of_mem _ hr, hxr⟩

/-- No root of a forest is its own child: the forest would have no end. -/
theorem Follows.not_mem_self {F : Forest α} (h : F.Follows kids) {x : α} (hx : x ∈ F.roots) : x ∉ kids x := by
  induction F with
  | nil => exact absurd hx List.not_mem_nil
  | cons a K R ihK ihR =>
    obtain ⟨hK, hK', hR'⟩ := h
    rcases List.mem_cons.1 hx with rfl | hx
    · intro hself
      exact ihK hK' (hK ▸ hself) hself
    · exact ihR hR' hx

/-- Every node below a node is somebody's child. -/
theorem Follows.exists_parent {F : Forest α} (h : F.Follows kids) {r : α} (hF : F.roots = kids r) {x : α}
    (hx : x ∈ F.preorder) : ∃ p, x ∈ kids p := by
  obtain ⟨a, ha, hxa⟩ := h.exists_root hx
  rcases Relation.ReflTransGen.cases_head hxa with rfl | ⟨p, hp, -⟩
  · exact ⟨r, hF ▸ ha⟩
  · exact ⟨p, hp⟩

/-- The tree at a root of a forest. -/
theorem exists_tree_of_root {F : Forest α} {k : Nat} {a : α} (h : F.roots[k]? = some a) :
    ∃ K, F.trees[k]? = some (a, K) ∧ ∀ kids : α → List α, F.Follows kids → (cons a K nil).Follows kids := by
  induction F generalizing k with
  | nil => cases h
  | cons x L R _ ihR =>
    cases k with
    | zero =>
      obtain rfl := Option.some.inj h
      exact ⟨L, rfl, fun kids hF => ⟨hF.1, hF.2.1, trivial⟩⟩
    | succ k =>
      obtain ⟨K, hK, hF⟩ := ihR h
      exact ⟨K, hK, fun kids hF' => hF kids hF'.2.2⟩

/-- The forest of an arena is closed under children. -/
theorem Follows.mem_kids {F : Forest α} (h : F.Follows kids) {x y : α} (hx : x ∈ F.preorder) (hy : y ∈ kids x) :
    y ∈ F.preorder := by
  induction F with
  | nil => exact absurd hx List.not_mem_nil
  | cons a K R ihK ihR =>
    obtain ⟨hK, hK', hR'⟩ := h
    refine List.mem_cons_of_mem _ (List.mem_append.2 ?_)
    rcases List.mem_cons.1 hx with rfl | hx
    · exact Or.inl (mem_preorder_of_mem_roots (hK ▸ hy))
    · rcases List.mem_append.1 hx with hx | hx
      · exact Or.inl (ihK hK' hx)
      · exact Or.inr (ihR hR' hx)

/-- Where the child relation is well-founded, every list of roots has its forest. -/
theorem exists_follows (wf : WellFounded (Child kids)) (xs : List α) : ∃ F : Forest α, F.roots = xs ∧ F.Follows kids := by
  have tree : ∀ a, ∃ K : Forest α, K.roots = kids a ∧ K.Follows kids := by
    intro a
    induction a using wf.induction with
    | _ a ih =>
      have list : ∀ ys : List α, (∀ y ∈ ys, y ∈ kids a) → ∃ K : Forest α, K.roots = ys ∧ K.Follows kids := by
        intro ys
        induction ys with
        | nil => exact fun _ => ⟨nil, rfl, trivial⟩
        | cons y ys ihy =>
          intro hys
          obtain ⟨K, hK, hK'⟩ := ih y (hys y List.mem_cons_self)
          obtain ⟨R, hR, hR'⟩ := ihy (fun z hz => hys z (List.mem_cons_of_mem _ hz))
          exact ⟨cons y K R, by rw [roots, hR], hK, hK', hR'⟩
      exact list (kids a) (fun _ hy => hy)
  induction xs with
  | nil => exact ⟨nil, rfl, trivial⟩
  | cons x xs ih =>
    obtain ⟨K, hK, hK'⟩ := tree x
    obtain ⟨R, hR, hR'⟩ := ih
    exact ⟨cons x K R, by rw [roots, hR], hK, hK', hR'⟩

section Shows

variable {ι : Type*} {entry entry' : ι → Option (α × List ι)}

/-- What an arena shows it still shows when it grows. -/
theorem Shows.mono (h : ∀ id x, entry id = some x → entry' id = some x) {ids : List ι} {F : Forest α}
    (hs : Shows entry ids F) : Shows entry' ids F := by
  induction F generalizing ids with
  | nil => exact hs
  | cons a K R ihK ihR =>
    obtain ⟨id, rest, children, rfl, he, hK, hR⟩ := hs
    exact ⟨id, rest, children, rfl, h id _ he, ihK hK, ihR hR⟩

/-- Nothing shows nothing. -/
theorem shows_nil : Shows entry [] (.nil : Forest α) := rfl

/-- Only the empty forest is shown by nothing. -/
theorem Shows.eq_nil {F : Forest α} (h : Shows entry [] F) : F = .nil := by
  cases F with
  | nil => rfl
  | cons a K R =>
    obtain ⟨_, _, _, h, -⟩ := h
    cases h

/-- What is shown one after another is shown side by side. -/
theorem Shows.append {ids ids' : List ι} {F G : Forest α} (hF : Shows entry ids F) (hG : Shows entry ids' G) :
    Shows entry (ids ++ ids') (F ++ G) := by
  induction F generalizing ids with
  | nil =>
    obtain rfl : ids = [] := hF
    exact hG
  | cons a K R _ ihR =>
    obtain ⟨id, rest, children, rfl, he, hK, hR⟩ := hF
    exact ⟨id, rest ++ ids', children, rfl, he, hK, ihR hR⟩

/-- One node shows one tree. -/
theorem Shows.single {id : ι} {a : α} {children : List ι} {K : Forest α} (he : entry id = some (a, children))
    (hK : Shows entry children K) : Shows entry [id] (cons a K nil) :=
  ⟨id, [], children, rfl, he, hK, rfl⟩

/-- The forest of ids behind the forest an arena shows. -/
theorem Shows.exists_forest {ids : List ι} {F : Forest α} (h : Shows entry ids F) :
    ∃ I : Forest ι, I.roots = ids ∧ I.Follows (fun id => ((entry id).map Prod.snd).getD []) ∧
      I.map (fun id => (entry id).map Prod.fst) = F.map some := by
  induction F generalizing ids with
  | nil =>
    obtain rfl : ids = [] := h
    exact ⟨nil, rfl, trivial, rfl⟩
  | cons a K R ihK ihR =>
    obtain ⟨id, rest, children, rfl, he, hK, hR⟩ := h
    obtain ⟨IK, hIK, hFK, hmK⟩ := ihK hK
    obtain ⟨IR, hIR, hFR, hmR⟩ := ihR hR
    refine ⟨cons id IK IR, by rw [roots, hIR], ⟨?_, hFK, hFR⟩, ?_⟩
    · simp only [hIK, he, Option.map_some, Option.getD_some]
    · rw [map, map, hmK, hmR, he]; rfl

end Shows

/-- A node below a root that is nobody's child has one list of ancestors. -/
theorem Ancestors.unique (hu : UniqueParents kids) {root : α} (hroot : ∀ p, root ∉ kids p) {x : α} {path path' : List α}
    (h : Ancestors kids root x path) (h' : Ancestors kids root x path') : path = path' := by
  induction h generalizing path' with
  | root =>
    cases h' with
    | root => rfl
    | child _ hc => exact absurd hc (hroot _)
  | child hp hc ih =>
    cases h' with
    | root => exact absurd hc (hroot _)
    | child hp' hc' =>
      obtain rfl := hu.parent _ _ _ hc hc'
      rw [ih hp']

/-- Every node below the root has a path of ancestors. -/
theorem exists_ancestors {root x : α} (h : Relation.ReflTransGen (Child kids) x root) :
    ∃ path, Ancestors kids root x path := by
  induction h using Relation.ReflTransGen.head_induction_on with
  | refl => exact ⟨[], .root⟩
  | head hc _ ih =>
    obtain ⟨path, hp⟩ := ih
    exact ⟨_, hp.child hc⟩

/-- The ancestors of a node of an arena with unique parents form a chain. -/
theorem UniqueParents.chain (hu : UniqueParents kids) {x a b : α} (ha : Relation.ReflTransGen (Child kids) x a)
    (hb : Relation.ReflTransGen (Child kids) x b) :
    Relation.ReflTransGen (Child kids) a b ∨ Relation.ReflTransGen (Child kids) b a :=
  Relation.ReflTransGen.total_of_right_unique (fun c p q hp hq => hu.parent c p q hp hq) ha hb

/-- In an arena with unique parents and no cycle, a node occurs in a forest once, provided its roots are distinct and none
of them lies below another. -/
theorem Follows.nodup (hu : UniqueParents kids) (wf : WellFounded (Child kids)) {F : Forest α} (h : F.Follows kids)
    (hn : F.roots.Nodup) (hr : ∀ a ∈ F.roots, ∀ b ∈ F.roots, ¬Relation.TransGen (Child kids) a b) : F.preorder.Nodup := by
  have irrefl : ∀ x, ¬Relation.TransGen (Child kids) x x := fun x => wf.transGen.irrefl.irrefl x
  induction F with
  | nil => exact List.nodup_nil
  | cons a K R ihK ihR =>
    obtain ⟨hK, hK', hR'⟩ := h
    obtain ⟨haR, hnR⟩ := List.nodup_cons.1 hn
    have below : ∀ x ∈ K.preorder, Relation.TransGen (Child kids) x a := by
      intro x hx
      obtain ⟨r, hr, hxr⟩ := hK'.exists_root hx
      exact Relation.TransGen.tail' hxr (show r ∈ kids a from hK ▸ hr)
    have kidsApart : ∀ c ∈ K.roots, ∀ d ∈ K.roots, ¬Relation.TransGen (Child kids) c d := by
      intro c hc d hd hcd
      rw [hK] at hc hd
      obtain ⟨e, hce, hed⟩ := Relation.TransGen.head'_iff.1 hcd
      obtain rfl : a = e := hu.parent c a e hc hce
      exact irrefl a (Relation.TransGen.tail' hed hd)
    have restApart : ∀ x ∈ R.preorder, ¬Relation.ReflTransGen (Child kids) x a := by
      intro x hx hxa
      obtain ⟨b, hb, hxb⟩ := hR'.exists_root hx
      have hb' : b ∈ (cons a K R).roots := List.mem_cons_of_mem _ hb
      have ha' : a ∈ (cons a K R).roots := List.mem_cons_self
      rcases hu.chain hxa hxb with hab | hba
      · rcases Relation.reflTransGen_iff_eq_or_transGen.1 hab with rfl | hab
        · exact haR hb
        · exact hr a ha' b hb' hab
      · rcases Relation.reflTransGen_iff_eq_or_transGen.1 hba with rfl | hba
        · exact haR hb
        · exact hr b hb' a ha' hba
    have nK : K.preorder.Nodup := ihK hK' (hK ▸ hu.nodup a) kidsApart
    have nR : R.preorder.Nodup :=
      ihR hR' hnR (fun b hb c hc => hr b (List.mem_cons_of_mem _ hb) c (List.mem_cons_of_mem _ hc))
    refine List.nodup_cons.2 ⟨?_, List.nodup_append.2 ⟨nK, nR, ?_⟩⟩
    · intro ha
      rcases List.mem_append.1 ha with ha | ha
      · exact irrefl a (below a ha)
      · exact restApart a ha Relation.ReflTransGen.refl
    · intro x hx y hy hxy
      exact restApart y hy (hxy ▸ (below x hx).to_reflTransGen)

/-- The tree below one root of an arena with unique parents and no cycle: every node occurs in it once. -/
theorem Follows.nodup_singleton (hu : UniqueParents kids) (wf : WellFounded (Child kids)) {F : Forest α}
    (h : F.Follows kids) {a : α} (hF : F.roots = [a]) : F.preorder.Nodup := by
  refine h.nodup hu wf (by simp [hF]) ?_
  intro b hb c hc
  rw [hF, List.mem_singleton] at hb hc
  subst hb hc
  exact wf.transGen.irrefl.irrefl _

/-- The nodes of the forest from one root are those at or below it. -/
theorem Follows.mem_preorder_iff {F : Forest α} (h : F.Follows kids) {r : α} (hF : F.roots = [r]) (x : α) :
    x ∈ F.preorder ↔ Relation.ReflTransGen (Child kids) x r := by
  constructor
  · intro hx
    obtain ⟨r', hr', hxr⟩ := h.exists_root hx
    rw [hF, List.mem_singleton] at hr'
    exact hr' ▸ hxr
  · intro hx
    induction hx using Relation.ReflTransGen.head_induction_on with
    | refl => exact mem_preorder_of_mem_roots (hF ▸ List.mem_cons_self)
    | head hc _ ih => exact h.mem_kids ih hc

/-- In a forest without repetition no root is a child, and no node is a child twice. -/
theorem Follows.children_apart {F : Forest α} (h : F.Follows kids) (hn : F.preorder.Nodup) {p c : α}
    (hp : p ∈ F.preorder) (hc : c ∈ kids p) : c ∉ F.roots ∧ ∀ q ∈ F.preorder, c ∈ kids q → p = q := by
  induction F generalizing p with
  | nil => cases hp
  | cons a K R ihK ihR =>
    obtain ⟨hK, hK', hR'⟩ := h
    obtain ⟨ha, hKR⟩ := List.nodup_cons.1 hn
    obtain ⟨hnK, hnR, hdis⟩ := List.nodup_append.1 hKR
    have notA : c ∈ K.preorder ∨ c ∈ R.preorder → c ≠ a := fun hc e => ha (e ▸ List.mem_append.2 hc)
    have apart : ∀ {z}, z ∈ K.preorder → z ∉ R.preorder := fun hz hz' => hdis _ hz _ hz' rfl
    -- where the children of the three parts of the forest are
    have atA : ∀ {z}, z ∈ kids a → z ∈ K.roots ∧ z ∈ K.preorder := fun hz => by
      rw [← hK] at hz
      exact ⟨hz, mem_preorder_of_mem_roots hz⟩
    rcases List.mem_cons.1 hp with rfl | hp
    · obtain ⟨hroot, hcK⟩ := atA hc
      refine ⟨?_, fun q hq hcq => ?_⟩
      · rw [roots, List.mem_cons]
        rintro (h | h)
        · exact notA (.inl hcK) h
        · exact apart hcK (mem_preorder_of_mem_roots h)
      · rcases List.mem_cons.1 hq with rfl | hq
        · rfl
        · rcases List.mem_append.1 hq with hq | hq
          · exact absurd hroot (ihK hK' hnK hq hcq).1
          · exact absurd (hR'.mem_kids hq hcq) (apart hcK)
    · rcases List.mem_append.1 hp with hp | hp
      · have hcK := hK'.mem_kids hp hc
        obtain ⟨hroot, huniq⟩ := ihK hK' hnK hp hc
        refine ⟨?_, fun q hq hcq => ?_⟩
        · rw [roots, List.mem_cons]
          rintro (h | h)
          · exact notA (.inl hcK) h
          · exact apart hcK (mem_preorder_of_mem_roots h)
        · rcases List.mem_cons.1 hq with rfl | hq
          · exact absurd (atA hcq).1 hroot
          · rcases List.mem_append.1 hq with hq | hq
            · exact huniq q hq hcq
            · exact absurd (hR'.mem_kids hq hcq) (apart hcK)
      · have hcR := hR'.mem_kids hp hc
        obtain ⟨hroot, huniq⟩ := ihR hR' hnR hp hc
        refine ⟨?_, fun q hq hcq => ?_⟩
        · rw [roots, List.mem_cons]
          rintro (h | h)
          · exact notA (.inr hcR) h
          · exact hroot h
        · rcases List.mem_cons.1 hq with rfl | hq
          · exact absurd hcR (apart (atA hcq).2)
          · rcases List.mem_append.1 hq with hq | hq
            · exact absurd hcR (apart (hK'.mem_kids hq hcq))
            · exact huniq q hq hcq

/-- The children of a node of a forest without repetition are distinct. -/
theorem Follows.nodup_kids {F : Forest α} (h : F.Follows kids) (hn : F.preorder.Nodup) {p : α} (hp : p ∈ F.preorder) :
    (kids p).Nodup := by
  induction F with
  | nil => cases hp
  | cons a K R ihK ihR =>
    obtain ⟨hK, hK', hR'⟩ := h
    obtain ⟨hnK, hnR, -⟩ := List.nodup_append.1 (List.nodup_cons.1 hn).2
    rcases List.mem_cons.1 hp with rfl | hp
    · rw [← hK]
      exact hnK.sublist (roots_sublist_preorder K)
    · rcases List.mem_append.1 hp with hp | hp
      · exact ihK hK' hnK hp
      · exact ihR hR' hnR hp

/-- An arena whose parents are all in one forest without repetition has unique parents. -/
theorem Follows.uniqueParents {F : Forest α} (h : F.Follows kids) (hn : F.preorder.Nodup)
    (hall : ∀ p, kids p ≠ [] → p ∈ F.preorder) : UniqueParents kids where
  parent c p q hp hq :=
    (h.children_apart hn (hall p (List.ne_nil_of_mem hp)) hp).2 q (hall q (List.ne_nil_of_mem hq)) hq
  nodup p := by
    by_cases hp : kids p = []
    · rw [hp]
      exact List.nodup_nil
    · exact h.nodup_kids hn (hall p hp)

/-- A list without repetition whose members are among the first `n` of an enumeration has at most `n` of them. -/
theorem length_le_of_nodup {xs : List α} (hn : xs.Nodup) (index : α → Nat) (hinj : ∀ a b, index a = index b → a = b)
    {n : Nat} (hlt : ∀ x ∈ xs, index x < n) : xs.length ≤ n := by
  have hm : (xs.map index).Nodup := hn.map (fun a b hab => hinj a b hab)
  have hsub : xs.map index ⊆ List.range n := by
    intro i hi
    obtain ⟨x, hx, rfl⟩ := List.mem_map.1 hi
    exact List.mem_range.2 (hlt x hx)
  have := (hm.subperm hsub).length_le
  rwa [List.length_map, List.length_range] at this

/-- A forest without repetition whose nodes are among the first `n` of an enumeration has at most `n` nodes. -/
theorem size_le_of_nodup {F : Forest α} (hn : F.preorder.Nodup) (index : α → Nat)
    (hinj : ∀ a b, index a = index b → a = b) {n : Nat} (hlt : ∀ x ∈ F.preorder, index x < n) : F.size ≤ n :=
  (length_preorder F).symm.trans_le (length_le_of_nodup hn index hinj hlt)

/-- A walk with a stack of nodes yields what the nodes below them emit, in pre-order: the children of a node go on top of the
rest. -/
theorem Follows.walk_flatMap_eq {walk : Nat → List α → List β} (emit : α → List β) (hnil : ∀ n, walk n [] = [])
    (hcons : ∀ n a stack, walk (n + 1) (a :: stack) = emit a ++ walk n (kids a ++ stack)) {F : Forest α} (h : F.Follows kids)
    {n : Nat} (hn : F.size ≤ n) : walk n F.roots = F.preorder.flatMap emit := by
  induction n generalizing F with
  | zero =>
    cases F with
    | nil => exact hnil 0
    | cons a K R => exact absurd hn (Nat.not_succ_le_zero _)
  | succ n ih =>
    cases F with
    | nil => exact hnil (n + 1)
    | cons a K R =>
      obtain ⟨hK, hK', hR'⟩ := h
      have hsize : (K ++ R).size ≤ n := by
        rw [size_append]
        exact Nat.le_of_succ_le_succ hn
      have hrest := ih (hK'.append hR') hsize
      rw [roots_append, hK, preorder_append] at hrest
      rw [roots, hcons, hrest, preorder, List.flatMap_cons]

/-- A walk with a stack of nodes that yields the nodes themselves yields the forest below them in pre-order. -/
theorem Follows.walk_eq {walk : Nat → List α → List α} (hnil : ∀ n, walk n [] = [])
    (hcons : ∀ n a stack, walk (n + 1) (a :: stack) = a :: walk n (kids a ++ stack)) {F : Forest α} (h : F.Follows kids)
    {n : Nat} (hn : F.size ≤ n) : walk n F.roots = F.preorder :=
  (h.walk_flatMap_eq (fun a => [a]) hnil hcons hn).trans (List.flatMap_singleton' _)

/-- An arena in which only finitely many nodes have children, and no node is below itself, has a well-founded child
relation. -/
theorem wellFounded_child_of_acyclic (nodes : List α) (hfin : ∀ p, kids p ≠ [] → p ∈ nodes)
    (hac : ∀ x, ¬Relation.TransGen (Child kids) x x) : WellFounded (Child kids) := by
  let r : {p // p ∈ nodes} → {p // p ∈ nodes} → Prop := fun a b => Relation.TransGen (Child kids) a.1 b.1
  have : Finite {p // p ∈ nodes} := (List.finite_toSet nodes).to_subtype
  have : IsTrans {p // p ∈ nodes} r := ⟨fun _ _ _ h h' => Relation.TransGen.trans h h'⟩
  have : Std.Irrefl r := ⟨fun a => hac a.1⟩
  have wf : WellFounded r := Finite.wellFounded_of_trans_of_irrefl r
  have inner : ∀ a : {p // p ∈ nodes}, Acc (Child kids) a.1 := by
    intro a
    induction a using wf.induction with
    | _ a ih =>
      refine Acc.intro _ ?_
      intro c hc
      by_cases hn : c ∈ nodes
      · exact ih ⟨c, hn⟩ (Relation.TransGen.single hc)
      · refine Acc.intro _ (fun d hd => absurd (hfin c ?_) hn)
        exact List.ne_nil_of_mem hd
  refine ⟨fun p => Acc.intro _ (fun c hc => ?_)⟩
  have hp : p ∈ nodes := hfin p (List.ne_nil_of_mem hc)
  exact (inner ⟨p, hp⟩).inv hc

/-- Below a node that is nobody's child there is a finite tree, if no node below has two parents: there may be cycles elsewhere
in the arena, but none below the node. -/
theorem exists_follows_below {root : α} (nodes : List α) (hfin : ∀ p, kids p ≠ [] → p ∈ nodes) (hroot : ∀ p, root ∉ kids p)
    (hu : ∀ c p q, Relation.ReflTransGen (Child kids) p root → Relation.ReflTransGen (Child kids) q root → c ∈ kids p →
      c ∈ kids q → p = q) (hnd : ∀ p, (kids p).Nodup) :
    ∃ F : Forest α, F.roots = kids root ∧ F.Follows kids ∧ (root :: F.preorder).Nodup := by
  classical
  let below : α → List α := fun p => if Relation.ReflTransGen (Child kids) p root then kids p else []
  have hbelow : ∀ {c p}, c ∈ below p → Relation.ReflTransGen (Child kids) p root ∧ c ∈ kids p := by
    intro c p hc
    by_cases hp : Relation.ReflTransGen (Child kids) p root
    · exact ⟨hp, by simpa [below, hp] using hc⟩
    · simp [below, hp] at hc
  have hmem : ∀ {c p}, Relation.ReflTransGen (Child kids) p root → c ∈ kids p → c ∈ below p := by
    intro c p hp hc
    simpa [below, hp] using hc
  have hunique : UniqueParents below := by
    refine ⟨fun c p q hp hq => hu c p q (hbelow hp).1 (hbelow hq).1 (hbelow hp).2 (hbelow hq).2, fun p => ?_⟩
    by_cases hp : Relation.ReflTransGen (Child kids) p root <;> simp [below, hp, hnd]
  -- a cycle has no way out: the root would be on it
  have hreach : ∀ x, Relation.ReflTransGen (Child kids) x root → ¬Relation.TransGen (Child below) x x := by
    intro x hx
    induction hx using Relation.ReflTransGen.head_induction_on with
    | refl =>
      intro hcycle
      obtain ⟨p, hp, -⟩ := Relation.TransGen.head'_iff.1 hcycle
      exact hroot p (hbelow hp).2
    | head hstep hrest ih =>
      intro hcycle
      obtain ⟨p, hp, hback⟩ := Relation.TransGen.head'_iff.1 hcycle
      have hstep' := hmem hrest hstep
      obtain rfl := hunique.parent _ _ _ hp hstep'
      exact ih (Relation.TransGen.tail' hback hstep')
  have hacyclic : ∀ x, ¬Relation.TransGen (Child below) x x := by
    intro x hcycle
    obtain ⟨p, hp, -⟩ := Relation.TransGen.head'_iff.1 hcycle
    exact hreach x (.head (hbelow hp).2 (hbelow hp).1) hcycle
  have wf : WellFounded (Child below) := by
    refine wellFounded_child_of_acyclic nodes (fun p hp => hfin p ?_) hacyclic
    obtain ⟨c, hc⟩ := List.exists_mem_of_ne_nil _ hp
    exact List.ne_nil_of_mem (hbelow hc).2
  obtain ⟨G, hG, hGF⟩ := exists_follows wf [root]
  have hnodup := hGF.nodup_singleton hunique wf hG
  have hreached : ∀ x ∈ G.preorder, below x = kids x := by
    intro x hx
    have hup : Relation.ReflTransGen (Child kids) x root :=
      Relation.ReflTransGen.mono (fun _ _ h => (hbelow h).2) _ _ ((hGF.mem_preorder_iff hG x).1 hx)
    exact if_pos hup
  have hGF' := hGF.congr hreached
  obtain ⟨F, rfl⟩ := eq_cons_of_roots hG
  rw [preorder, preorder, List.append_nil] at hnodup
  exact ⟨F, hGF'.1, hGF'.2.1, hnodup⟩

end Arena

end Forest
