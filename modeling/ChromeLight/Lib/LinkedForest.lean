import ChromeLight.Lib.Forest
import Mathlib.Data.List.Basic

/-!
# Linked forests

Nodes of an ordered forest that carry five links each: parent, first and last child, previous and next sibling. `Represents h
kids` says that the links of the heap `h` are those of the forest whose child lists are `kids`. The two link surgeries take a
node out from between its neighbours (`unlink`) and put a node without parent between two neighbours (`link`); each patches
up to four other nodes, and leaves a representation of the forest in which exactly one child list changed.
-/

namespace LinkedForest

/-- The five links of a node. -/
structure Links (ι : Type*) where
  parent : Option ι
  firstChild : Option ι
  lastChild : Option ι
  prev : Option ι
  next : Option ι
deriving DecidableEq, Repr

/-- The links of the nodes that exist. -/
abbrev Heap (ι : Type*) := ι → Option (Links ι)

variable {ι : Type*} [DecidableEq ι]

/-- Change the links of one node, if it exists. -/
def Heap.modify (h : Heap ι) (i : ι) (f : Links ι → Links ι) : Heap ι :=
  fun j => if j = i then (h j).map f else h j

/-- Make `v` the node after `prev` under the parent `p`: its next sibling, or the first child when `prev` is none. -/
def Heap.setAfter (h : Heap ι) (prev : Option ι) (p : ι) (v : Option ι) : Heap ι :=
  match prev with
  | some a => h.modify a fun l => { l with next := v }
  | none => h.modify p fun l => { l with firstChild := v }

/-- Make `v` the node before `next` under the parent `p`: its previous sibling, or the last child when `next` is none. -/
def Heap.setBefore (h : Heap ι) (next : Option ι) (p : ι) (v : Option ι) : Heap ι :=
  match next with
  | some b => h.modify b fun l => { l with prev := v }
  | none => h.modify p fun l => { l with lastChild := v }

/-- Take a node out of the child list of its parent `p`, from between its neighbours. -/
def unlink (h : Heap ι) (p : ι) (prev next : Option ι) (c : ι) : Heap ι :=
  ((h.setAfter prev p next).setBefore next p prev).modify c fun l => { l with parent := none, prev := none, next := none }

/-- Put a node into the child list of `p`, between two neighbours. -/
def link (h : Heap ι) (p : ι) (prev next : Option ι) (c : ι) : Heap ι :=
  ((h.modify c fun l => { l with parent := some p, prev := prev, next := next }).setAfter prev p (some c)).setBefore
    next p (some c)

/-- One more node, without links. -/
def add (h : Heap ι) (c : ι) : Heap ι :=
  fun j => if j = c then some { parent := none, firstChild := none, lastChild := none, prev := none, next := none } else h j

/-- The links of `h` are those of the ordered forest with child lists `kids`. -/
structure Represents (h : Heap ι) (kids : ι → List ι) : Prop where
  absent : ∀ p, h p = none → kids p = []
  present : ∀ p, ∀ c ∈ kids p, (h c).isSome
  nodup : ∀ p, (kids p).Nodup
  first : ∀ p n, h p = some n → n.firstChild = (kids p).head?
  last : ∀ p n, h p = some n → n.lastChild = (kids p).getLast?
  parent : ∀ c n, h c = some n → ∀ p, n.parent = some p ↔ c ∈ kids p
  place : ∀ p L c R n, kids p = L ++ c :: R → h c = some n → n.prev = L.getLast? ∧ n.next = R.head?
  orphan : ∀ c n, h c = some n → n.parent = none → n.prev = none ∧ n.next = none

/-- The forest with one child list changed. -/
def setKids (kids : ι → List ι) (p : ι) (l : List ι) : ι → List ι := fun q => if q = p then l else kids q

@[simp] theorem setKids_self (kids : ι → List ι) (p : ι) (l : List ι) : setKids kids p l p = l := if_pos rfl

theorem setKids_ne (kids : ι → List ι) {p q : ι} (l : List ι) (hq : q ≠ p) : setKids kids p l q = kids q := if_neg hq

/-- Changing a child list to what it is changes nothing. -/
theorem setKids_same (kids : ι → List ι) (p : ι) : setKids kids p (kids p) = kids := by
  funext q
  by_cases hq : q = p
  · rw [hq, setKids_self]
  · rw [setKids_ne _ _ hq]

/-- No child list repeats a node, if the new one does not. -/
theorem nodup_setKids {kids : ι → List ι} (hn : ∀ q, (kids q).Nodup) {p : ι} {l : List ι} (hl : l.Nodup) (q : ι) :
    (setKids kids p l q).Nodup := by
  by_cases hq : q = p
  · rwa [hq, setKids_self]
  · rw [setKids_ne kids l hq]
    exact hn q

/-- Inserting at the place of a node of a child list is inserting immediately before it. -/
theorem insertIdx_idxOf {L R : List ι} {c : ι} (hc : c ∉ L) (n : ι) :
    (L ++ c :: R).insertIdx ((L ++ c :: R).idxOf c) n = L ++ n :: c :: R := by
  have hplace : (L ++ c :: R).idxOf c = L.length := by
    rw [List.idxOf_append_of_notMem hc, List.idxOf_cons_self, Nat.add_zero]
  rw [hplace]
  clear hplace hc
  induction L with
  | nil => rfl
  | cons x L ih => exact congrArg (x :: ·) ih

/-- Erasing a node of a child list takes it out from between its neighbours. -/
theorem erase_child {L R : List ι} {c : ι} (hc : c ∉ L) : (L ++ c :: R).erase c = L ++ R := by
  rw [List.erase_append_right _ hc, List.erase_cons_head]

namespace Represents

omit [DecidableEq ι]

variable {h : Heap ι} {kids : ι → List ι}

/-- A node has at most one parent. -/
theorem uniqueParents (hr : Represents h kids) : Forest.UniqueParents kids := by
  refine ⟨fun c p q hp hq => ?_, hr.nodup⟩
  obtain ⟨n, hn⟩ := Option.isSome_iff_exists.1 (hr.present p c hp)
  have h1 := (hr.parent c n hn p).2 hp
  have h2 := (hr.parent c n hn q).2 hq
  exact Option.some.inj (h1.symm.trans h2)

theorem parent_present (hr : Represents h kids) {p c : ι} (hc : c ∈ kids p) : ∃ n, h p = some n := by
  cases hp : h p with
  | none => rw [hr.absent p hp] at hc; exact absurd hc List.not_mem_nil
  | some n => exact ⟨n, rfl⟩

/-- What comes before a node in its child list does not contain it. -/
theorem not_mem_left (hr : Represents h kids) {p c : ι} {L R : List ι} (hk : kids p = L ++ c :: R) : c ∉ L := fun hc =>
  (List.nodup_cons.1 (List.nodup_middle.1 (hk ▸ hr.nodup p))).1 (List.mem_append_left _ hc)

/-- A node without parent is in no child list. -/
theorem not_mem_of_orphan (hr : Represents h kids) {c : ι} {n : Links ι} (hc : h c = some n) (hp : n.parent = none)
    (p : ι) : c ∉ kids p := by
  intro hm
  rw [(hr.parent c n hc p).2 hm] at hp
  cases hp

end Represents

/-! ## The links after a surgery -/

theorem Heap.modify_apply (h : Heap ι) (i : ι) (f : Links ι → Links ι) (x : ι) :
    h.modify i f x = (h x).map fun m => if x = i then f m else m := by
  by_cases hi : x = i
  · simp only [Heap.modify, hi, if_true]
  · simp only [Heap.modify, hi, if_false, Option.map_id']

theorem Heap.setAfter_apply (h : Heap ι) (prev : Option ι) (p : ι) (v : Option ι) (x : ι) :
    h.setAfter prev p v x = (h x).map fun m =>
      { m with firstChild := if prev = none ∧ x = p then v else m.firstChild
               next := if prev = some x then v else m.next } := by
  cases prev with
  | none =>
    simp only [Heap.setAfter, Heap.modify_apply, true_and, reduceCtorEq, if_false]
    congr 1
    funext m
    split <;> rfl
  | some a =>
    simp only [Heap.setAfter, Heap.modify_apply, reduceCtorEq, false_and, if_false, Option.some.injEq, eq_comm (a := a)]
    congr 1
    funext m
    split <;> rfl

theorem Heap.setBefore_apply (h : Heap ι) (next : Option ι) (p : ι) (v : Option ι) (x : ι) :
    h.setBefore next p v x = (h x).map fun m =>
      { m with lastChild := if next = none ∧ x = p then v else m.lastChild
               prev := if next = some x then v else m.prev } := by
  cases next with
  | none =>
    simp only [Heap.setBefore, Heap.modify_apply, true_and, reduceCtorEq, if_false]
    congr 1
    funext m
    split <;> rfl
  | some b =>
    simp only [Heap.setBefore, Heap.modify_apply, reduceCtorEq, false_and, if_false, Option.some.injEq, eq_comm (a := b)]
    congr 1
    funext m
    split <;> rfl

/-- The links of every node after a node is taken out. -/
theorem unlink_apply (h : Heap ι) (p : ι) (prev next : Option ι) (c x : ι) :
    unlink h p prev next c x = (h x).map fun m =>
      { parent := if x = c then none else m.parent
        firstChild := if prev = none ∧ x = p then next else m.firstChild
        lastChild := if next = none ∧ x = p then prev else m.lastChild
        prev := if x = c then none else if next = some x then prev else m.prev
        next := if x = c then none else if prev = some x then next else m.next } := by
  simp only [unlink, Heap.modify_apply, Heap.setAfter_apply, Heap.setBefore_apply, Option.map_map]
  congr 1
  funext m
  by_cases hc : x = c <;> simp only [Function.comp_apply, hc, if_true, if_false]

/-- The links of every node after a node is put in. -/
theorem link_apply (h : Heap ι) (p : ι) (prev next : Option ι) (c x : ι) :
    link h p prev next c x = (h x).map fun m =>
      { parent := if x = c then some p else m.parent
        firstChild := if prev = none ∧ x = p then some c else m.firstChild
        lastChild := if next = none ∧ x = p then some c else m.lastChild
        prev := if next = some x then some c else if x = c then prev else m.prev
        next := if prev = some x then some c else if x = c then next else m.next } := by
  simp only [link, Heap.modify_apply, Heap.setAfter_apply, Heap.setBefore_apply, Option.map_map]
  congr 1
  funext m
  by_cases hc : x = c <;> simp only [Function.comp_apply, hc, if_true, if_false]

/-! ## A surgery changes one child list -/

namespace Represents

variable {h : Heap ι} {kids : ι → List ι}

/-- Where the neighbours of `x` in `L ++ R` are, when its neighbours in `L ++ c :: R` are known. -/
theorem splice_neighbours {l : List ι} {c x : ι} {L R L' R' : List ι} {m : Links ι}
    (hplace : ∀ L c R n, l = L ++ c :: R → h c = some n → n.prev = L.getLast? ∧ n.next = R.head?)
    (hl : l = L ++ c :: R) (hnd : (L ++ c :: R).Nodup) (hx : L ++ R = L' ++ x :: R') (hm : h x = some m) :
    (if R.head? = some x then L.getLast? else m.prev) = L'.getLast? ∧
      (if L.getLast? = some x then R.head? else m.next) = R'.head? := by
  rcases List.append_eq_append_iff.1 hx with ⟨A, rfl, rfl⟩ | ⟨B, rfl, hB⟩
  · -- `x` is right of the gap
    obtain ⟨hp, hn⟩ := hplace (L ++ c :: A) x R' m (by rw [hl]; simp) hm
    have hxL : L.getLast? ≠ some x := fun e => by
      have := List.mem_of_getLast? e
      simp [List.nodup_append] at hnd
      grind
    rw [if_neg hxL]
    refine ⟨?_, hn⟩
    cases A with
    | nil => simp
    | cons a A =>
      have hax : a ≠ x := by
        rintro rfl
        simp [List.nodup_append] at hnd
      simp [hax, hp]
  · -- `x` is left of the gap, or first right of it
    cases B with
    | nil =>
      obtain rfl : R = x :: R' := by simpa using hB.symm
      obtain ⟨hp, hn⟩ := hplace (L' ++ [c]) x R' m (by rw [hl]; simp) hm
      have hxL : L'.getLast? ≠ some x := fun e => by
        have := List.mem_of_getLast? e
        simp [List.nodup_append] at hnd
        grind
      simp [hxL, hn]
    | cons b B =>
      obtain ⟨rfl, rfl⟩ : x = b ∧ R' = B ++ R := by simpa using hB
      obtain ⟨hp, hn⟩ := hplace L' x (B ++ c :: R) m (by rw [hl]; simp) hm
      have hxR : R.head? ≠ some x := fun e => by
        have := List.mem_of_head? e
        simp [List.nodup_append] at hnd
        grind
      rw [if_neg hxR]
      refine ⟨hp, ?_⟩
      rcases List.eq_nil_or_concat B with rfl | ⟨B, y, rfl⟩
      · simp
      · have hyx : y ≠ x := by
          rintro rfl
          simp [List.nodup_append] at hnd
        have hlast : (L' ++ x :: B.concat y).getLast? = some y := by simp [List.getLast?_append, List.getLast?_cons]
        rw [hlast, if_neg (by simpa using hyx), hn]
        cases B <;> simp

/-- Child lists after one entry of one of them is taken out. -/
theorem mem_setKids_splice (hr : Represents h kids) {p c : ι} {L R : List ι} (hk : kids p = L ++ c :: R) (q x : ι) :
    x ∈ setKids kids p (L ++ R) q ↔ x ∈ kids q ∧ x ≠ c := by
  by_cases hq : q = p
  · subst hq
    have hcL : c ∉ L ++ R := (List.nodup_cons.1 (List.nodup_middle.1 (hk ▸ hr.nodup q))).1
    rw [setKids_self, hk]
    simp only [List.mem_append, List.mem_cons]
    constructor
    · intro hx
      exact ⟨by tauto, fun e => hcL (e ▸ List.mem_append.2 hx)⟩
    · tauto
  · have hcp : c ∈ kids p := hk ▸ List.mem_append_right _ List.mem_cons_self
    rw [setKids_ne kids _ hq]
    refine ⟨fun hx => ⟨hx, fun e => hq ?_⟩, And.left⟩
    exact hr.uniqueParents.parent c q p (e ▸ hx) hcp

/-- Child lists after one entry is put into one of them. -/
theorem mem_setKids_insert {p c : ι} {L R : List ι} (hk : kids p = L ++ R) (q x : ι) :
    x ∈ setKids kids p (L ++ c :: R) q ↔ x ∈ kids q ∨ (x = c ∧ q = p) := by
  by_cases hq : q = p
  · subst hq
    rw [setKids_self, hk]
    simp only [List.mem_append, List.mem_cons, and_true]
    tauto
  · rw [setKids_ne kids _ hq]
    simp [hq]

omit [DecidableEq ι] in
/-- What is in neither list is not next to the gap between them. -/
theorem ne_of_not_mem {L R : List ι} {x : ι} (hL : x ∉ L) (hR : x ∉ R) : L.getLast? ≠ some x ∧ R.head? ≠ some x :=
  ⟨fun e => hL (List.mem_of_getLast? e), fun e => hR (List.mem_of_head? e)⟩

/-- A node that was not there is nobody's child and has no children. -/
theorem add (hr : Represents h kids) {c : ι} (hc : h c = none) : Represents (add h c) kids := by
  have hget : ∀ x n, LinkedForest.add h c x = some n → h x = some n ∨ h x = none ∧ n = ⟨none, none, none, none, none⟩ := by
    intro x n hn
    rw [LinkedForest.add] at hn
    split at hn
    · rename_i hx
      exact .inr ⟨hx ▸ hc, (Option.some.inj hn).symm⟩
    · exact .inl hn
  have hchild : ∀ {p x}, x ∈ kids p → h x ≠ none := by
    intro p x hx hno
    have := hr.present p x hx
    rw [hno] at this
    cases this
  refine ⟨?_, ?_, hr.nodup, ?_, ?_, ?_, ?_, ?_⟩
  · intro p hp
    rw [LinkedForest.add] at hp
    split at hp
    · cases hp
    · exact hr.absent p hp
  · intro p x hx
    have hne : x ≠ c := fun e => hchild hx (e ▸ hc)
    rw [LinkedForest.add, if_neg hne]
    exact hr.present p x hx
  · intro p n hn
    rcases hget p n hn with hold | ⟨hno, rfl⟩
    · exact hr.first p n hold
    · rw [hr.absent p hno]
      rfl
  · intro p n hn
    rcases hget p n hn with hold | ⟨hno, rfl⟩
    · exact hr.last p n hold
    · rw [hr.absent p hno]
      rfl
  · intro x n hn p
    rcases hget x n hn with hold | ⟨hno, rfl⟩
    · exact hr.parent x n hold p
    · exact ⟨fun h => by simp at h, fun hx => absurd hno (hchild hx)⟩
  · intro p L x R n hk hn
    rcases hget x n hn with hold | ⟨hno, -⟩
    · exact hr.place p L x R n hk hold
    · exact absurd hno (hchild (hk ▸ List.mem_append_right _ List.mem_cons_self))
  · intro x n hn ho
    rcases hget x n hn with hold | ⟨-, rfl⟩
    · exact hr.orphan x n hold ho
    · exact ⟨rfl, rfl⟩

/-- Taking a node out leaves the forest without it in its parent's child list. -/
theorem unlink (hr : Represents h kids) {p c : ι} {L R : List ι} (hk : kids p = L ++ c :: R) :
    Represents (unlink h p L.getLast? R.head? c) (setKids kids p (L ++ R)) := by
  have hnd : (L ++ c :: R).Nodup := hk ▸ hr.nodup p
  have hcp : c ∈ kids p := hk ▸ List.mem_append_right _ List.mem_cons_self
  have hsub := hr.mem_setKids_splice hk
  have hget : ∀ x n, LinkedForest.unlink h p L.getLast? R.head? c x = some n → ∃ m, h x = some m ∧ n =
      { parent := if x = c then none else m.parent
        firstChild := if L.getLast? = none ∧ x = p then R.head? else m.firstChild
        lastChild := if R.head? = none ∧ x = p then L.getLast? else m.lastChild
        prev := if x = c then none else if R.head? = some x then L.getLast? else m.prev
        next := if x = c then none else if L.getLast? = some x then R.head? else m.next } := by
    intro x n hn
    rw [unlink_apply, Option.map_eq_some_iff] at hn
    obtain ⟨m, hm, rfl⟩ := hn
    exact ⟨m, hm, rfl⟩
  refine ⟨?_, ?_, ?_, ?_, ?_, ?_, ?_, ?_⟩
  · intro q hq
    rw [unlink_apply, Option.map_eq_none_iff] at hq
    have hqp : q ≠ p := by
      rintro rfl
      rw [hr.absent q hq] at hcp
      exact absurd hcp List.not_mem_nil
    rw [setKids_ne kids _ hqp, hr.absent q hq]
  · intro q x hx
    rw [unlink_apply, Option.isSome_map]
    exact hr.present q x ((hsub q x).1 hx).1
  · exact nodup_setKids hr.nodup (List.nodup_cons.1 (List.nodup_middle.1 hnd)).2
  · intro q n hn
    obtain ⟨m, hm, rfl⟩ := hget q n hn
    have hf := hr.first q m hm
    by_cases hq : q = p
    · subst hq
      rw [hk] at hf
      rw [setKids_self]
      cases L <;> simp_all
    · rw [setKids_ne kids _ hq]
      simp only [hq, and_false, if_false, hf]
  · intro q n hn
    obtain ⟨m, hm, rfl⟩ := hget q n hn
    have hl := hr.last q m hm
    by_cases hq : q = p
    · subst hq
      rw [hk] at hl
      rw [setKids_self]
      cases R <;> simp_all
    · rw [setKids_ne kids _ hq]
      simp only [hq, and_false, if_false, hl]
  · intro x n hn q
    obtain ⟨m, hm, rfl⟩ := hget x n hn
    rw [hsub]
    by_cases hx : x = c
    · simp [hx]
    · simp only [hx, if_false, ne_eq, not_false_eq_true, and_true]
      exact hr.parent x m hm q
  · intro q L' x R' n hq hn
    obtain ⟨m, hm, rfl⟩ := hget x n hn
    have hxq : x ∈ setKids kids p (L ++ R) q := hq ▸ List.mem_append_right _ List.mem_cons_self
    obtain ⟨hxk, hxc⟩ := (hsub q x).1 hxq
    simp only [hxc, if_false]
    by_cases hqp : q = p
    · subst hqp
      rw [setKids_self] at hq
      obtain ⟨h1, h2⟩ := splice_neighbours (hr.place q) hk hnd hq hm
      exact ⟨h1, h2⟩
    · rw [setKids_ne kids _ hqp] at hq
      have hxp : x ∉ L ++ c :: R := fun hx => hqp (hr.uniqueParents.parent x q p hxk (hk ▸ hx))
      simp only [List.mem_append, List.mem_cons, not_or] at hxp
      obtain ⟨hL, hR⟩ := ne_of_not_mem hxp.1 hxp.2.2
      rw [if_neg hL, if_neg hR]
      exact hr.place q L' x R' m hq hm
  · intro x n hn ho
    obtain ⟨m, hm, rfl⟩ := hget x n hn
    by_cases hx : x = c
    · simp [hx]
    · simp only [hx, if_false] at ho ⊢
      have hno : x ∉ L ++ c :: R := hk ▸ hr.not_mem_of_orphan hm ho p
      simp only [List.mem_append, List.mem_cons, not_or] at hno
      obtain ⟨hL, hR⟩ := ne_of_not_mem hno.1 hno.2.2
      rw [if_neg hL, if_neg hR]
      exact hr.orphan x m hm ho

/-- Where the neighbours of `x` in `L ++ c :: R` are, when its neighbours in `L ++ R` are known. -/
theorem insert_neighbours {l : List ι} {c x : ι} {L R L' R' : List ι} {m : Links ι}
    (hplace : ∀ L c R n, l = L ++ c :: R → h c = some n → n.prev = L.getLast? ∧ n.next = R.head?)
    (hl : l = L ++ R) (hnd : (L ++ c :: R).Nodup) (hx : L ++ c :: R = L' ++ x :: R') (hm : h x = some m) :
    (if R.head? = some x then some c else if x = c then L.getLast? else m.prev) = L'.getLast? ∧
      (if L.getLast? = some x then some c else if x = c then R.head? else m.next) = R'.head? := by
  have hcL : ∀ y ∈ L, y ≠ c ∧ y ∉ R := by
    intro y hy
    simp only [List.nodup_append, List.mem_cons] at hnd
    exact ⟨hnd.2.2 y hy c (Or.inl rfl), fun h => hnd.2.2 y hy y (Or.inr h) rfl⟩
  rcases List.append_eq_append_iff.1 hx with ⟨A, rfl, hA⟩ | ⟨B, rfl, hB⟩
  · cases A with
    | nil =>
      -- `x` is the new node
      obtain ⟨rfl, rfl⟩ : c = x ∧ R = R' := by simpa using hA
      have hxL : L.getLast? ≠ some c := fun e => (hcL c (List.mem_of_getLast? e)).1 rfl
      have hxR : R.head? ≠ some c := fun e => by
        have := List.mem_of_head? e
        simp [List.nodup_append, this] at hnd
      simp [hxL, hxR]
    | cons a A =>
      -- `x` is right of the new node
      obtain ⟨rfl, rfl⟩ : c = a ∧ R = A ++ x :: R' := by simpa using hA
      obtain ⟨hp, hn⟩ := hplace (L ++ A) x R' m (by rw [hl]; simp) hm
      have hxL : L.getLast? ≠ some x := fun e => (hcL x (List.mem_of_getLast? e)).2 (by simp)
      have hxc : x ≠ c := by
        rintro rfl
        simp [List.nodup_append] at hnd
      rw [if_neg hxL, if_neg hxc, if_neg hxc]
      refine ⟨?_, hn⟩
      cases A with
      | nil => simp
      | cons b A =>
        have hbx : b ≠ x := by
          rintro rfl
          simp [List.nodup_append] at hnd
        simp [hbx, hp, List.getLast?_cons]
  · cases B with
    | nil =>
      obtain ⟨rfl, rfl⟩ : x = c ∧ R' = R := by simpa using hB
      have hxL : L'.getLast? ≠ some x := fun e => (hcL x (by simpa using List.mem_of_getLast? e)).1 rfl
      have hxR : R'.head? ≠ some x := fun e => by
        have := List.mem_of_head? e
        simp [List.nodup_append, this] at hnd
      simp [hxL, hxR]
    | cons b B =>
      -- `x` is left of the new node
      obtain ⟨rfl, rfl⟩ : x = b ∧ R' = B ++ c :: R := by simpa using hB
      obtain ⟨hp, hn⟩ := hplace L' x (B ++ R) m (by rw [hl]; simp) hm
      obtain ⟨hxc, hxR⟩ := hcL x (by simp)
      have hxR' : R.head? ≠ some x := fun e => hxR (List.mem_of_head? e)
      rw [if_neg hxR', if_neg hxc, if_neg hxc]
      refine ⟨hp, ?_⟩
      rcases List.eq_nil_or_concat B with rfl | ⟨B, y, rfl⟩
      · simp
      · have hyx : y ≠ x := by
          rintro rfl
          simp [List.nodup_append] at hnd
        have hlast : (L' ++ x :: B.concat y).getLast? = some y := by simp [List.getLast?_append, List.getLast?_cons]
        rw [hlast, if_neg (by simpa using hyx), hn]
        cases B <;> simp

/-- Putting a node without parent in leaves the forest with it at that place of its new parent's child list. -/
theorem link (hr : Represents h kids) {p c : ι} {n : Links ι} {L R : List ι} (hk : kids p = L ++ R)
    (hp : (h p).isSome) (hc : h c = some n) (hn : n.parent = none) :
    Represents (link h p L.getLast? R.head? c) (setKids kids p (L ++ c :: R)) := by
  have hnot : ∀ q, c ∉ kids q := hr.not_mem_of_orphan hc hn
  have hnd : (L ++ c :: R).Nodup := List.nodup_middle.2 (List.nodup_cons.2 ⟨hk ▸ hnot p, hk ▸ hr.nodup p⟩)
  have hsub := mem_setKids_insert (c := c) hk
  have hget : ∀ x n, LinkedForest.link h p L.getLast? R.head? c x = some n → ∃ m, h x = some m ∧ n =
      { parent := if x = c then some p else m.parent
        firstChild := if L.getLast? = none ∧ x = p then some c else m.firstChild
        lastChild := if R.head? = none ∧ x = p then some c else m.lastChild
        prev := if R.head? = some x then some c else if x = c then L.getLast? else m.prev
        next := if L.getLast? = some x then some c else if x = c then R.head? else m.next } := by
    intro x n hn
    rw [link_apply, Option.map_eq_some_iff] at hn
    obtain ⟨m, hm, rfl⟩ := hn
    exact ⟨m, hm, rfl⟩
  have apart : ∀ x, x ∉ kids p → L.getLast? ≠ some x ∧ R.head? ≠ some x := by
    intro x hx
    rw [hk, List.mem_append, not_or] at hx
    exact ne_of_not_mem hx.1 hx.2
  refine ⟨?_, ?_, ?_, ?_, ?_, ?_, ?_, ?_⟩
  · intro q hq
    rw [link_apply, Option.map_eq_none_iff] at hq
    have hqp : q ≠ p := by
      rintro rfl
      rw [hq] at hp
      exact absurd hp (by simp)
    rw [setKids_ne kids _ hqp, hr.absent q hq]
  · intro q x hx
    rw [link_apply, Option.isSome_map]
    rcases (hsub q x).1 hx with hx | ⟨rfl, -⟩
    · exact hr.present q x hx
    · rw [hc]; rfl
  · exact nodup_setKids hr.nodup hnd
  · intro q n hn
    obtain ⟨m, hm, rfl⟩ := hget q n hn
    have hf := hr.first q m hm
    by_cases hq : q = p
    · subst hq
      rw [hk] at hf
      rw [setKids_self]
      cases L <;> simp_all
    · rw [setKids_ne kids _ hq]
      simp only [hq, and_false, if_false, hf]
  · intro q n hn
    obtain ⟨m, hm, rfl⟩ := hget q n hn
    have hl := hr.last q m hm
    by_cases hq : q = p
    · subst hq
      rw [hk] at hl
      rw [setKids_self]
      cases R <;> simp_all [List.getLast?_cons]
    · rw [setKids_ne kids _ hq]
      simp only [hq, and_false, if_false, hl]
  · intro x n' hn' q
    obtain ⟨m, hm, rfl⟩ := hget x n' hn'
    rw [hsub]
    by_cases hx : x = c
    · subst hx
      simp [hnot q, eq_comm]
    · simp only [hx, if_false, false_and, or_false]
      exact hr.parent x m hm q
  · intro q L' x R' n' hq hn'
    obtain ⟨m, hm, rfl⟩ := hget x n' hn'
    by_cases hqp : q = p
    · subst hqp
      rw [setKids_self] at hq
      exact insert_neighbours (hr.place q) hk hnd hq hm
    · rw [setKids_ne kids _ hqp] at hq
      have hxq : x ∈ kids q := hq ▸ List.mem_append_right _ List.mem_cons_self
      have hxp : x ∉ kids p := fun hx => hqp (hr.uniqueParents.parent x q p hxq hx)
      have hxc : x ≠ c := fun e => hnot q (e ▸ hxq)
      simp only [hxc, if_false]
      rw [if_neg (apart x hxp).2, if_neg (apart x hxp).1]
      exact hr.place q L' x R' m hq hm
  · intro x n' hn' ho
    obtain ⟨m, hm, rfl⟩ := hget x n' hn'
    by_cases hx : x = c
    · simp [hx] at ho
    · simp only [hx, if_false] at ho ⊢
      have hno : x ∉ kids p := hr.not_mem_of_orphan hm ho p
      rw [if_neg (apart x hno).2, if_neg (apart x hno).1]
      exact hr.orphan x m hm ho

end Represents

/-! ## Cycles -/

section Acyclic

variable {kids : ι → List ι}

/-- Removing nodes from a child list keeps the child relation well-founded. -/
theorem wellFounded_setKids_of_subset (wf : WellFounded (Forest.Child kids)) {p : ι} {l : List ι} (hl : l ⊆ kids p) :
    WellFounded (Forest.Child (setKids kids p l)) := by
  refine Subrelation.wf (fun {c q} hc => ?_) wf
  by_cases hq : q = p
  · subst hq
    rw [Forest.Child, setKids_self] at hc
    exact hl hc
  · rwa [Forest.Child, setKids_ne kids l hq] at hc

/-- A new child that is not an ancestor of its parent, nor the parent itself, keeps the child relation well-founded. -/
theorem wellFounded_setKids_insert (wf : WellFounded (Forest.Child kids)) {p c : ι} {l : List ι}
    (hl : ∀ x ∈ l, x = c ∨ x ∈ kids p) (hpc : ¬Relation.ReflTransGen (Forest.Child kids) p c) :
    WellFounded (Forest.Child (setKids kids p l)) := by
  -- below `c` nothing has changed, since `p` is not there
  have below : ∀ x, Relation.ReflTransGen (Forest.Child kids) x c → Acc (Forest.Child (setKids kids p l)) x := by
    intro x
    induction x using wf.induction with
    | _ x ih =>
      intro hx
      refine Acc.intro x ?_
      intro y hy
      have hxp : x ≠ p := fun e => hpc (e ▸ hx)
      rw [Forest.Child, setKids_ne kids l hxp] at hy
      exact ih y hy (Relation.ReflTransGen.head hy hx)
  refine ⟨?_⟩
  intro x
  induction x using wf.induction with
  | _ x ih =>
    refine Acc.intro x ?_
    intro y hy
    by_cases hxp : x = p
    · subst hxp
      rw [Forest.Child, setKids_self] at hy
      rcases hl y hy with rfl | hy
      · exact below y Relation.ReflTransGen.refl
      · exact ih y hy
    · rw [Forest.Child, setKids_ne kids l hxp] at hy
      exact ih y hy

end Acyclic

end LinkedForest
