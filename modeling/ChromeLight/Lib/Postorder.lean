import ChromeLight.Lib.Forest

/-!
# Forests stored in post-order

An arena that appends a node after its children holds a forest in post-order. `ids mk start F` is the forest of the ids its
nodes get when the next free position is `start`, and `Stored mk entry start F` says that the arena has its labels and its
child lists there. The ids are the positions from `start` on, each once (`mem_preorder_ids`, `nodup_preorder_ids`), so the
nodes below one are an interval that ends with it.
-/

namespace Postorder

variable {α ι : Type*}

/-- The ids of a forest whose nodes are appended in post-order, from a position on. -/
def ids (mk : Nat → ι) : Nat → Forest α → Forest ι
  | _, .nil => .nil
  | start, .cons _ K R => .cons (mk (start + K.size)) (ids mk start K) (ids mk (start + K.size + 1) R)

/-- The arena holds the forest in post-order from a position on. -/
def Stored (mk : Nat → ι) (entry : ι → Option (α × List ι)) : Nat → Forest α → Prop
  | _, .nil => True
  | start, .cons a K R => entry (mk (start + K.size)) = some (a, (ids mk start K).roots) ∧ Stored mk entry start K ∧
      Stored mk entry (start + K.size + 1) R

variable {mk : Nat → ι} {entry entry' : ι → Option (α × List ι)} {start : Nat} {F G : Forest α}

/-! ## The ids -/

theorem ids_append (mk : Nat → ι) (start : Nat) (F G : Forest α) :
    ids mk start (F ++ G) = ids mk start F ++ ids mk (start + F.size) G := by
  induction F generalizing start with
  | nil => rfl
  | cons a K R _ ihR =>
    simp only [Forest.cons_append, ids, ihR, Forest.size]
    rw [show start + K.size + 1 + R.size = start + (K.size + R.size + 1) by omega]

theorem size_ids (mk : Nat → ι) (start : Nat) (F : Forest α) : (ids mk start F).size = F.size := by
  induction F generalizing start with
  | nil => rfl
  | cons a K R ihK ihR => simp only [ids, Forest.size, ihK, ihR]

/-- The ids of a forest are the positions it takes. -/
theorem mem_preorder_ids {x : ι} : x ∈ (ids mk start F).preorder ↔ ∃ i, start ≤ i ∧ i < start + F.size ∧ x = mk i := by
  induction F generalizing start with
  | nil =>
    simp only [ids, Forest.preorder, Forest.size, List.not_mem_nil, false_iff]
    omega
  | cons a K R ihK ihR =>
    simp only [ids, Forest.preorder, Forest.size, List.mem_cons, List.mem_append, ihK, ihR]
    constructor
    · rintro (rfl | ⟨i, h1, h2, rfl⟩ | ⟨i, h1, h2, rfl⟩)
      · exact ⟨_, by omega, by omega, rfl⟩
      · exact ⟨i, h1, by omega, rfl⟩
      · exact ⟨i, by omega, by omega, rfl⟩
    · rintro ⟨i, h1, h2, rfl⟩
      rcases Nat.lt_trichotomy i (start + K.size) with h | rfl | h
      · exact .inr (.inl ⟨i, h1, h, rfl⟩)
      · exact .inl rfl
      · exact .inr (.inr ⟨i, h, by omega, rfl⟩)

/-- No id occurs twice. -/
theorem nodup_preorder_ids (hmk : Function.Injective mk) (start : Nat) (F : Forest α) :
    (ids mk start F).preorder.Nodup := by
  induction F generalizing start with
  | nil => exact List.nodup_nil
  | cons a K R ihK ihR =>
    refine List.nodup_cons.2 ⟨?_, List.nodup_append.2 ⟨ihK _, ihR _, ?_⟩⟩
    · intro h
      rcases List.mem_append.1 h with h | h
      · obtain ⟨i, h1, h2, he⟩ := mem_preorder_ids.1 h
        obtain rfl := hmk he
        omega
      · obtain ⟨i, h1, h2, he⟩ := mem_preorder_ids.1 h
        obtain rfl := hmk he
        omega
    · rintro x hx y hy rfl
      obtain ⟨i, h1, h2, rfl⟩ := mem_preorder_ids.1 hx
      obtain ⟨j, h3, h4, he⟩ := mem_preorder_ids.1 hy
      obtain rfl := hmk he
      omega

/-! ## What is stored -/

theorem stored_append : Stored mk entry start (F ++ G) ↔ Stored mk entry start F ∧ Stored mk entry (start + F.size) G := by
  induction F generalizing start with
  | nil => simp [Stored, Forest.size]
  | cons a K R _ ihR =>
    simp only [Forest.cons_append, Stored, ihR, Forest.size, and_assoc]
    rw [show start + K.size + 1 + R.size = start + (K.size + R.size + 1) by omega]

/-- What an arena holds it still holds when it grows. -/
theorem Stored.mono (h : ∀ id x, entry id = some x → entry' id = some x) (hs : Stored mk entry start F) :
    Stored mk entry' start F := by
  induction F generalizing start with
  | nil => trivial
  | cons a K R ihK ihR =>
    obtain ⟨he, hK, hR⟩ := hs
    exact ⟨h _ _ he, ihK hK, ihR hR⟩

/-- The children of the nodes stored, by id. -/
def kids (entry : ι → Option (α × List ι)) (id : ι) : List ι := ((entry id).map Prod.snd).getD []

theorem Stored.follows (h : Stored mk entry start F) : (ids mk start F).Follows (kids entry) := by
  induction F generalizing start with
  | nil => trivial
  | cons a K R ihK ihR =>
    obtain ⟨he, hK, hR⟩ := h
    exact ⟨by rw [kids, he]; rfl, ihK hK, ihR hR⟩

/-- The label at each id. -/
theorem Stored.map_ids (h : Stored mk entry start F) :
    (ids mk start F).map (fun id => (entry id).map Prod.fst) = F.map some := by
  induction F generalizing start with
  | nil => rfl
  | cons a K R ihK ihR =>
    obtain ⟨he, hK, hR⟩ := h
    rw [ids, Forest.map, Forest.map, ihK hK, ihR hR, he]
    rfl

/-- The labels of the forest are those the arena has at its ids. -/
theorem Stored.mem_preorder (h : Stored mk entry start F) {a : α} :
    a ∈ F.preorder ↔ ∃ id ∈ (ids mk start F).preorder, ∃ children, entry id = some (a, children) := by
  have hmap := congrArg Forest.preorder h.map_ids
  simp only [Forest.preorder_map] at hmap
  have : a ∈ F.preorder ↔ some a ∈ F.preorder.map some := by simp
  rw [this, ← hmap, List.mem_map]
  constructor
  · rintro ⟨id, hid, he⟩
    obtain ⟨⟨a', children⟩, h1, rfl⟩ := Option.map_eq_some_iff.1 he
    exact ⟨id, hid, children, h1⟩
  · rintro ⟨id, hid, children, he⟩
    exact ⟨id, hid, by rw [he]; rfl⟩

/-- Every id of the forest has an entry. -/
theorem Stored.exists_entry (h : Stored mk entry start F) {id : ι} (hid : id ∈ (ids mk start F).preorder) :
    ∃ x, entry id = some x := by
  have hmap := congrArg Forest.preorder h.map_ids
  simp only [Forest.preorder_map] at hmap
  have hmem : (entry id).map Prod.fst ∈ F.preorder.map some := hmap ▸ List.mem_map_of_mem hid
  obtain ⟨a, -, ha⟩ := List.mem_map.1 hmem
  obtain ⟨x, hx, -⟩ := Option.map_eq_some_iff.1 ha.symm
  exact ⟨x, hx⟩

/-- What holds between every label of the forest and those of its children holds in the arena. -/
theorem Stored.locally {P : α → List α → Prop} (h : Stored mk entry start F) (hF : F.Locally P) {id : ι} {a : α}
    {children : List ι} (hid : id ∈ (ids mk start F).preorder) (he : entry id = some (a, children)) :
    ∃ labels, P a labels ∧ children.map (fun c => (entry c).map Prod.fst) = labels.map some := by
  induction F generalizing start with
  | nil => cases hid
  | cons b K R ihK ihR =>
    obtain ⟨hb, hK, hR⟩ := h
    obtain ⟨hP, hPK, hPR⟩ := hF
    rcases List.mem_cons.1 hid with rfl | hid
    · obtain ⟨rfl, rfl⟩ := Prod.mk.inj (Option.some.inj (he.symm.trans hb))
      have hmap := congrArg Forest.roots hK.map_ids
      simp only [Forest.roots_map] at hmap
      exact ⟨K.roots, hP, hmap⟩
    · rcases List.mem_append.1 hid with hid | hid
      · exact ihK hK hPK hid
      · exact ihR hR hPR hid

/-- The children of a node come before it. -/
theorem Stored.child_lt (hmk : Function.Injective mk) (h : Stored mk entry start F) {p c : Nat}
    (hp : mk p ∈ (ids mk start F).preorder) (hc : mk c ∈ kids entry (mk p)) : c < p := by
  induction F generalizing start with
  | nil => cases hp
  | cons a K R ihK ihR =>
    obtain ⟨he, hK, hR⟩ := h
    rcases List.mem_cons.1 hp with hp | hp
    · rw [kids, hp, he] at hc
      obtain ⟨i, h1, h2, hi⟩ := mem_preorder_ids.1 (Forest.mem_preorder_of_mem_roots hc)
      have h3 := hmk hp
      have h4 := hmk hi
      omega
    · rcases List.mem_append.1 hp with hp | hp
      · exact ihK hK hp
      · exact ihR hR hp

/-- The tree a root of the forest is on top of. -/
theorem Stored.tree_of_root (h : Stored mk entry start F) {k : Nat} {a : α} {K : Forest α} (hk : F.trees[k]? = some (a, K)) :
    ∃ start', (ids mk start F).roots[k]? = some (mk (start' + K.size)) ∧
      Stored mk entry start' (.cons a K .nil) := by
  induction F generalizing start k with
  | nil => cases hk
  | cons b L R _ ihR =>
    obtain ⟨he, hL, hR⟩ := h
    cases k with
    | zero =>
      obtain ⟨rfl, rfl⟩ := Prod.mk.inj (Option.some.inj hk)
      exact ⟨start, rfl, he, hL, trivial⟩
    | succ k => exact ihR hR hk

/-! ## Branches -/

/-- For each node of a forest, in post-order, the labels from the node up to its root. -/
def branches : Forest α → List (List α)
  | .nil => []
  | .cons a K R => (branches K).map (· ++ [a]) ++ [[a]] ++ branches R

theorem length_branches (F : Forest α) : (branches F).length = F.size := by
  induction F with
  | nil => rfl
  | cons a K R ihK ihR =>
    simp only [branches, List.length_append, List.length_map, List.length_singleton, ihK, ihR, Forest.size]
    omega

theorem branches_append (F G : Forest α) : branches (F ++ G) = branches F ++ branches G := by
  induction F with
  | nil => rfl
  | cons a K R _ ihR => simp only [Forest.cons_append, branches, ihR, List.append_assoc]

/-- A node is below the first root, is that root, or is in another tree. -/
theorem branches_cons_cases {a : α} {K R : Forest α} {i : Nat} {branch : List α}
    (h : (branches (.cons a K R))[i]? = some branch) :
    (∃ branch', (branches K)[i]? = some branch' ∧ branch = branch' ++ [a]) ∨ (i = K.size ∧ branch = [a]) ∨
      ∃ j, i = K.size + 1 + j ∧ (branches R)[j]? = some branch := by
  rw [branches, List.append_assoc] at h
  rcases Nat.lt_or_ge i (branches K).length with hi | hi
  · rw [List.getElem?_append_left (by rwa [List.length_map]), List.getElem?_map] at h
    obtain ⟨branch', h', rfl⟩ := Option.map_eq_some_iff.1 h
    exact .inl ⟨branch', h', rfl⟩
  · rw [List.getElem?_append_right (by rwa [List.length_map]), List.length_map, length_branches] at h
    rw [length_branches] at hi
    obtain ⟨j, rfl⟩ := Nat.exists_eq_add_of_le hi
    rw [Nat.add_sub_cancel_left] at h
    cases j with
    | zero => exact .inr (.inl ⟨rfl, (Option.some.inj h).symm⟩)
    | succ j => exact .inr (.inr ⟨j, by omega, h⟩)

end Postorder
