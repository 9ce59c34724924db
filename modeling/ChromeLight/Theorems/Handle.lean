import ChromeLight.Handle
import ChromeLight.Theorems.Traverse

/-!
# The element links of the style pass

`NodeArena.link` goes forth and back over every child list and gives each child the element it passed last. A node is in one
child list at most, so what one child list gives it no other one takes away (`Linked.linkChildren`): when all are done, each slot
holds the elements nearest to its node among its siblings, and the first one among its children. These are the elements that the
walks along the siblings meet first (`walkToElement_eq`).
-/

namespace ChromeLight

namespace Style

open Document (Tree)

/-! ## One pass over a child list -/

/-- A list of nodes with what says which of them are marked. -/
def flagged (mark : NodeId → Bool) (nodes : List NodeId) : List (NodeId × Bool) := nodes.map fun id => (id, mark id)

variable {set : Option NodeId → NodeSlot → NodeSlot} {mark : NodeId → Bool} {slots : List NodeSlot} {y : NodeId}
  {L R : List NodeId}

theorem linkPass_append (slots : List NodeSlot) (passed : Option NodeId) (A B : List (NodeId × Bool)) :
    linkPass set slots passed (A ++ B) = linkPass set (linkPass set slots passed A).1 (linkPass set slots passed A).2 B := by
  induction A generalizing slots passed with
  | nil => rfl
  | cons c A ih => exact ih _ _

/-- What a pass has passed last is the last marked node of the list. -/
theorem linkPass_passed (slots : List NodeSlot) (passed : Option NodeId) (nodes : List NodeId) :
    (linkPass set slots passed (flagged mark nodes)).2 = (nodes.reverse.find? mark).or passed := by
  induction nodes generalizing slots passed with
  | nil => rfl
  | cons c nodes ih =>
    refine (ih _ _).trans ?_
    rw [List.reverse_cons, List.find?_append, Option.or_assoc]
    congr 1
    cases hc : mark c <;> simp [hc]

theorem getElem?_modify_slot (slots : List NodeSlot) (f : NodeSlot → NodeSlot) (x y : NodeId) :
    (slots.modify x.index f)[y.index]? = if x = y then slots[y.index]?.map f else slots[y.index]? := by
  have hx : x.index = y.index ↔ x = y := ⟨NodeId.ext_index, fun h => h ▸ rfl⟩
  rw [List.getElem?_modify]
  simp only [hx]
  split <;> simp

/-- A pass changes no other slots than those of the nodes it visits. -/
theorem linkPass_other {nodes : List NodeId} (hy : y ∉ nodes) (slots : List NodeSlot) (passed : Option NodeId) :
    (linkPass set slots passed (flagged mark nodes)).1[y.index]? = slots[y.index]? := by
  induction nodes generalizing slots passed with
  | nil => rfl
  | cons c nodes ih =>
    rw [List.mem_cons, not_or] at hy
    refine (ih hy.2 _ _).trans ?_
    rw [getElem?_modify_slot, if_neg (Ne.symm hy.1)]

/-- A pass gives a node that it visits once the last marked node before it. -/
theorem linkPass_visited (hnd : (L ++ y :: R).Nodup) (slots : List NodeSlot) :
    (linkPass set slots none (flagged mark (L ++ y :: R))).1[y.index]? =
      slots[y.index]?.map (set (L.reverse.find? mark)) := by
  have hleft : y ∉ L := fun h => List.disjoint_of_nodup_append hnd h List.mem_cons_self
  have hright : y ∉ R := (List.nodup_cons.1 hnd.of_append_right).1
  have hsplit : flagged mark (L ++ y :: R) = flagged mark L ++ (y, mark y) :: flagged mark R := by
    simp only [flagged, List.map_append, List.map_cons]
  rw [hsplit, linkPass_append, linkPass, linkPass_other hright, getElem?_modify_slot, if_pos rfl, linkPass_other hleft,
    linkPass_passed, Option.or_none]

/-! ## All child lists -/

/-- The slots of a document when the child lists of some nodes are done. -/
structure Linked (doc : Document) (kids : NodeId → List NodeId) (done : List NodeId) (slots : List NodeSlot) : Prop where
  length : slots.length = doc.len
  id : ∀ (y : NodeId) s, slots[y.index]? = some s → s.id = y
  siblings : ∀ (y : NodeId) s, slots[y.index]? = some s → ∀ p ∈ done, ∀ L R, kids p = L ++ y :: R →
    s.prevElementSibling = L.reverse.find? (isElement doc) ∧ s.nextElementSibling = R.find? (isElement doc)
  orphan : ∀ (y : NodeId) s, slots[y.index]? = some s → (∀ p, y ∉ kids p) →
    s.prevElementSibling = none ∧ s.nextElementSibling = none
  child : ∀ (y : NodeId) s, slots[y.index]? = some s → y ∈ done → s.firstElementChild = (kids y).find? (isElement doc)

variable {doc : Document} {kids : NodeId → List NodeId} {done : List NodeId}

theorem Linked.slot (h : Linked doc kids done slots) {id : NodeId} {n : Node} (hid : doc.get id = some n) :
    ∃ s, slots[id.index]? = some s := by
  have hlt : id.index < slots.length := h.length ▸ Tree.index_lt_len hid
  exact ⟨_, List.getElem?_eq_getElem hlt⟩

/-- The children of a node as the passes see them. -/
theorem Linked.children_eq (h : Linked doc kids done slots) (t : Tree doc kids) (p : NodeId) :
    (((doc.children p).filterMap fun id => slots[id.index]?).map fun slot => (slot.id, isElement doc slot.id)) =
      flagged (isElement doc) (kids p) := by
  rw [t.children_eq, List.map_filterMap, flagged, ← List.filterMap_eq_map]
  refine List.filterMap_congr fun c hc => ?_
  obtain ⟨n, hn⟩ := t.get_child hc
  obtain ⟨s, hs⟩ := h.slot hn
  rw [hs, Option.map_some, h.id c s hs]
  rfl

/-- What linking the children of one node gives their slots. -/
theorem Linked.linkChildren_child (h : Linked doc kids done slots) (t : Tree doc kids) {p : NodeId}
    (hk : kids p = L ++ y :: R) : (linkChildren doc slots p)[y.index]? = slots[y.index]?.map fun slot =>
      { slot with
        prevElementSibling := L.reverse.find? (isElement doc)
        nextElementSibling := R.find? (isElement doc) } := by
  have hnd : (L ++ y :: R).Nodup := hk ▸ t.represents.nodup p
  have hback : (R.reverse ++ y :: L.reverse).Nodup := by
    have := List.nodup_reverse.2 hnd
    simpa using this
  have hne : p ≠ y := by
    rintro rfl
    exact t.not_transGen_self p (.single (by simp [Forest.Child, hk]))
  have hrev : (flagged (isElement doc) (L ++ y :: R)).reverse = flagged (isElement doc) (R.reverse ++ y :: L.reverse) := by
    simp [flagged]
  simp only [linkChildren]
  rw [h.children_eq t, hk, getElem?_modify_slot, if_neg hne, hrev, linkPass_visited hback, linkPass_visited hnd,
    List.reverse_reverse, Option.map_map]
  rfl

/-- What linking the children of a node gives the slots of other nodes: the node itself gets its first element. -/
theorem Linked.linkChildren_other (h : Linked doc kids done slots) (t : Tree doc kids) {p : NodeId} (hy : y ∉ kids p) :
    (linkChildren doc slots p)[y.index]? = slots[y.index]?.map fun slot =>
      { slot with
        firstElementChild := if p = y then (kids p).find? (isElement doc) else slot.firstElementChild } := by
  have hback : y ∉ (kids p).reverse := fun hy' => hy (List.mem_reverse.1 hy')
  have hrev : (flagged (isElement doc) (kids p)).reverse = flagged (isElement doc) (kids p).reverse := by simp [flagged]
  simp only [linkChildren]
  rw [h.children_eq t, getElem?_modify_slot, hrev, linkPass_other hback, linkPass_other hy, linkPass_passed,
    List.reverse_reverse, Option.or_none]
  by_cases hp : p = y
  · simp [hp]
  · simp [hp]

theorem length_linkPass (slots : List NodeSlot) (passed : Option NodeId) (children : List (NodeId × Bool)) :
    (linkPass set slots passed children).1.length = slots.length := by
  induction children generalizing slots passed with
  | nil => rfl
  | cons c children ih => exact (ih _ _).trans (List.length_modify ..)

theorem length_linkChildren (doc : Document) (slots : List NodeSlot) (p : NodeId) :
    (linkChildren doc slots p).length = slots.length := by
  simp only [linkChildren]
  rw [List.length_modify, length_linkPass, length_linkPass]

/-- One more child list done. -/
theorem Linked.linkChildren (h : Linked doc kids done slots) (t : Tree doc kids) (q : NodeId) :
    Linked doc kids (q :: done) (linkChildren doc slots q) := by
  have hother : ∀ {y s'}, y ∉ kids q → (Style.linkChildren doc slots q)[y.index]? = some s' →
      ∃ s, slots[y.index]? = some s ∧ s' =
        { s with firstElementChild := if q = y then (kids q).find? (isElement doc) else s.firstElementChild } := by
    intro y s' hy hs'
    rw [h.linkChildren_other t hy] at hs'
    obtain ⟨s, hs, rfl⟩ := Option.map_eq_some_iff.1 hs'
    exact ⟨s, hs, rfl⟩
  have hchild : ∀ {y s' L R}, kids q = L ++ y :: R → (Style.linkChildren doc slots q)[y.index]? = some s' →
      ∃ s, slots[y.index]? = some s ∧ s' =
        { s with
          prevElementSibling := L.reverse.find? (isElement doc)
          nextElementSibling := R.find? (isElement doc) } := by
    intro y s' L R hk hs'
    rw [h.linkChildren_child t hk] at hs'
    obtain ⟨s, hs, rfl⟩ := Option.map_eq_some_iff.1 hs'
    exact ⟨s, hs, rfl⟩
  constructor
  case length => rw [length_linkChildren, h.length]
  case id =>
    intro y s' hs'
    by_cases hy : y ∈ kids q
    · obtain ⟨L, R, hk⟩ := List.append_of_mem hy
      obtain ⟨s, hs, rfl⟩ := hchild hk hs'
      exact h.id y s hs
    · obtain ⟨s, hs, rfl⟩ := hother hy hs'
      exact h.id y s hs
  case siblings =>
    intro y s' hs' p hp L R hk
    by_cases hpq : p = q
    · subst hpq
      obtain ⟨s, -, rfl⟩ := hchild hk hs'
      exact ⟨rfl, rfl⟩
    · -- the list of `p` is the only one that holds the node
      have hy : y ∉ kids q := fun hy => hpq (t.represents.uniqueParents.parent y p q (by simp [hk]) hy)
      obtain ⟨s, hs, rfl⟩ := hother hy hs'
      exact h.siblings y s hs p (List.mem_of_ne_of_mem hpq hp) L R hk
  case orphan =>
    intro y s' hs' ho
    obtain ⟨s, hs, rfl⟩ := hother (ho q) hs'
    exact h.orphan y s hs ho
  case child =>
    intro y s' hs' hdone
    by_cases hy : y ∈ kids q
    · obtain ⟨L, R, hk⟩ := List.append_of_mem hy
      obtain ⟨s, hs, rfl⟩ := hchild hk hs'
      have hne : y ≠ q := by
        rintro rfl
        exact t.not_transGen_self y (.single hy)
      exact h.child y s hs (List.mem_of_ne_of_mem hne hdone)
    · obtain ⟨s, hs, rfl⟩ := hother hy hs'
      by_cases hq : q = y
      · subst hq
        exact if_pos rfl
      · exact (if_neg hq).trans (h.child y s hs (List.mem_of_ne_of_mem (Ne.symm hq) hdone))

/-- All child lists of some parents done, one after the other. -/
theorem Linked.foldl (h : Linked doc kids done slots) (t : Tree doc kids) (parents : List NodeSlot) :
    Linked doc kids ((parents.map (·.id)).reverse ++ done)
      (parents.foldl (fun slots parent => Style.linkChildren doc slots parent.id) slots) := by
  induction parents generalizing done slots with
  | nil => exact h
  | cons parent parents ih =>
    have := ih (h.linkChildren t parent.id)
    rwa [List.map_cons, List.reverse_cons, List.append_assoc, List.singleton_append, List.foldl_cons]

/-- Before any child list is done no slot has a link. -/
theorem linked_new {store : StyleStore} {arena : NodeArena} (kids : NodeId → List NodeId) (hnew : NodeArena.new doc store = some arena) :
    arena.doc = doc ∧ arena.linked = false ∧ Linked doc kids [] arena.slots := by
  obtain ⟨-, harena⟩ := Option.ite_none_right_eq_some.1 hnew
  obtain rfl := Option.some.inj harena
  have hslot : ∀ (y : NodeId) s, ((List.range doc.len).map fun index => ({ id := .fromIndex index } : NodeSlot))[y.index]? =
      some s → s = { id := y } := by
    intro y s hs
    rw [List.getElem?_map, Option.map_eq_some_iff] at hs
    obtain ⟨i, hi, rfl⟩ := hs
    obtain ⟨-, rfl⟩ := List.getElem?_eq_some_iff.1 hi
    rw [List.getElem_range, NodeId.ext_index (NodeId.index_fromIndex y.isU32)]
  refine ⟨rfl, rfl, by simp, ?_, ?_, ?_, ?_⟩
  · intro y s hs
    rw [hslot y s hs]
  · exact fun y s _ p hp => absurd hp List.not_mem_nil
  · intro y s hs _
    rw [hslot y s hs]
    exact ⟨rfl, rfl⟩
  · exact fun y s _ hy => absurd hy List.not_mem_nil

/-- A linked arena: all child lists are done. -/
structure Linking (doc : Document) (kids : NodeId → List NodeId) (done : List NodeId) (arena : NodeArena) : Prop where
  slots : Linked doc kids done arena.slots
  all : ∀ y n, doc.get y = some n → y ∈ done
  document : arena.doc = doc
  linked : arena.linked = true

theorem linking_link {store : StyleStore} {arena : NodeArena} (t : Tree doc kids) (hnew : NodeArena.new doc store = some arena) :
    ∃ done, Linking doc kids done arena.link := by
  obtain ⟨rfl, hlinked, h⟩ := linked_new kids hnew
  have hlink : arena.link = { arena with
      linked := true
      slots := arena.slots.foldl (fun slots parent => linkChildren arena.doc slots parent.id) arena.slots } :=
    if_neg (by simp [hlinked])
  rw [hlink]
  refine ⟨_, h.foldl t arena.slots, fun y n hy => ?_, rfl, rfl⟩
  obtain ⟨s, hs⟩ := h.slot hy
  have hmem : y ∈ arena.slots.map (·.id) := List.mem_map.2 ⟨s, List.mem_of_getElem? hs, h.id y s hs⟩
  simpa using hmem

/-! ## The walks -/

/-- A walk along the nodes of a list returns the first element of the list. -/
theorem walkToElement_eq (arena : NodeArena) (step : NodeId → Option NodeId) (path : List NodeId)
    (h : ∀ A x B, path = A ++ x :: B → step x = B.head?) :
    arena.walkToElement path.head? step = .some (path.find? (isElement arena.doc)) := by
  induction path with
  | nil => exact While.loop_inr rfl
  | cons x path ih =>
    cases hx : isElement arena.doc x with
    | true =>
      rw [List.find?_cons_of_pos hx]
      exact While.loop_inr (if_pos hx)
    | false =>
      have hstep : step x = path.head? := h [] x path rfl
      rw [List.find?_cons_of_neg (by simp [hx]), ← ih fun A y B he => h (x :: A) y B (he ▸ rfl), ← hstep]
      exact While.loop_inl (if_neg (by simp [hx]))

variable {arena : NodeArena}

/-- A node of the document has a handle. -/
theorem Linking.withId (h : Linking doc kids done arena) {id : NodeId} {n : Node} (hid : doc.get id = some n) :
    arena.withId id = some id := by
  obtain ⟨s, hs⟩ := h.slots.slot hid
  rw [NodeArena.withId, hs, Option.map_some, h.slots.id id s hs]

/-- A child has a handle, and the links to children are read through it. -/
theorem Linking.bind_withId (h : Linking doc kids done arena) (t : Tree doc kids) {link : Option NodeId}
    (hlink : ∀ c, link = some c → ∃ p, c ∈ kids p) : link.bind arena.withId = link := by
  cases link with
  | none => rfl
  | some c =>
    obtain ⟨p, hp⟩ := hlink c rfl
    obtain ⟨n, hn⟩ := t.get_child hp
    exact h.withId hn

/-- The handles of the neighbours of a child. -/
theorem Linking.neighbours (h : Linking doc kids done arena) (t : Tree doc kids) {p : NodeId} (hk : kids p = L ++ y :: R) :
    arena.prevSibling y = L.getLast? ∧ arena.nextSibling y = R.head? := by
  obtain ⟨n, hn⟩ := t.get_child (p := p) (c := y) (by simp [hk])
  obtain ⟨hprev, hnext⟩ := t.represents.place p L y R n.links hk (Document.links_eq_some hn)
  have hleft : ∀ c, L.getLast? = some c → ∃ p, c ∈ kids p := fun c hc => ⟨p, by simp [hk, List.mem_of_getLast? hc]⟩
  have hright : ∀ c, R.head? = some c → ∃ p, c ∈ kids p := fun c hc => ⟨p, by simp [hk, List.mem_of_head? hc]⟩
  constructor
  · rw [NodeArena.prevSibling, h.document, hn, Option.bind_some, show n.prevSibling = L.getLast? from hprev, h.bind_withId t hleft]
  · rw [NodeArena.nextSibling, h.document, hn, Option.bind_some, show n.nextSibling = R.head? from hnext, h.bind_withId t hright]

/-- The walk along the next siblings of the nodes right of some place in a child list. -/
theorem Linking.walk_right (h : Linking doc kids done arena) (t : Tree doc kids) {p : NodeId} (hk : kids p = L ++ R) :
    arena.walkToElement R.head? arena.nextSibling = .some (R.find? (isElement doc)) := by
  rw [← h.document]
  refine walkToElement_eq arena _ R fun A x B he => ?_
  have hsplit : kids p = (L ++ A) ++ x :: B := by rw [hk, he, List.append_assoc]
  exact (h.neighbours t hsplit).2

/-- The walk along the previous siblings of the nodes left of some place in a child list. -/
theorem Linking.walk_left (h : Linking doc kids done arena) (t : Tree doc kids) {p : NodeId} (hk : kids p = L ++ R) :
    arena.walkToElement L.getLast? arena.prevSibling = .some (L.reverse.find? (isElement doc)) := by
  rw [← h.document, ← List.head?_reverse]
  refine walkToElement_eq arena _ L.reverse fun A x B he => ?_
  have hL : L = B.reverse ++ x :: A.reverse := by
    rw [← List.reverse_reverse L, he, List.reverse_append, List.reverse_cons, List.append_assoc, List.singleton_append]
  have hsplit : kids p = B.reverse ++ x :: (A.reverse ++ R) := by rw [hk, hL, List.append_assoc, List.cons_append]
  rw [(h.neighbours t hsplit).1, List.getLast?_reverse]

/-- A walk from nowhere ends at once. -/
theorem walkToElement_none (arena : NodeArena) (step : NodeId → Option NodeId) :
    arena.walkToElement none step = .some none := While.loop_inr rfl

/-- The links of a node are what the walks from it find. -/
structure LinksMatchWalks (arena : NodeArena) (handle : NodeId) : Prop where
  prevSiblingElement : arena.walkToElement (arena.prevSibling handle) arena.prevSibling =
    .some (arena.prevSiblingElement handle)
  nextSiblingElement : arena.walkToElement (arena.nextSibling handle) arena.nextSibling =
    .some (arena.nextSiblingElement handle)
  firstElementChild : arena.walkToElement (arena.firstChild handle) arena.nextSibling =
    .some (arena.firstElementChild handle)

theorem Linking.linksMatchWalks (h : Linking doc kids done arena) (t : Tree doc kids) {id : NodeId} {n : Node}
    (hid : doc.get id = some n) : LinksMatchWalks arena id := by
  obtain ⟨s, hs⟩ := h.slots.slot hid
  have hprev : arena.prevSiblingElement id = s.prevElementSibling := by
    rw [NodeArena.prevSiblingElement, hs, Option.bind_some]
  have hnext : arena.nextSiblingElement id = s.nextElementSibling := by
    rw [NodeArena.nextSiblingElement, hs, Option.bind_some]
  have hfirst : arena.firstElementChild id = s.firstElementChild := by
    rw [NodeArena.firstElementChild, hs, Option.bind_some]
  have hchild : ∀ c, (kids id).head? = some c → ∃ p, c ∈ kids p := fun c hc => ⟨id, List.mem_of_head? hc⟩
  have hhead : arena.firstChild id = (kids id).head? := by
    have hlink : n.firstChild = (kids id).head? := t.represents.first id n.links (Document.links_eq_some hid)
    rw [NodeArena.firstChild, h.document, hid, Option.bind_some, hlink, h.bind_withId t hchild]
  have hdown := h.walk_right t (List.nil_append (kids id)).symm
  rw [← hhead, ← h.slots.child id s hs (h.all id n hid), ← hfirst] at hdown
  cases hparent : n.parent with
  | none =>
    -- a node without parent has no siblings
    have hlinks := Document.links_eq_some hid
    obtain ⟨hp, hn⟩ := t.represents.orphan id n.links hlinks hparent
    obtain ⟨hsp, hsn⟩ := h.slots.orphan id s hs (t.represents.not_mem_of_orphan hlinks hparent)
    have hnoPrev : arena.prevSibling id = none := by
      rw [NodeArena.prevSibling, h.document, hid, Option.bind_some, show n.prevSibling = none from hp, Option.bind_none]
    have hnoNext : arena.nextSibling id = none := by
      rw [NodeArena.nextSibling, h.document, hid, Option.bind_some, show n.nextSibling = none from hn, Option.bind_none]
    refine ⟨?_, ?_, hdown⟩
    · rw [hnoPrev, hprev, hsp, walkToElement_none]
    · rw [hnoNext, hnext, hsn, walkToElement_none]
  | some p =>
    obtain ⟨L, R, hk⟩ := List.append_of_mem ((t.parent_iff hid).1 hparent)
    obtain ⟨m, hm⟩ := t.get_parent ((t.parent_iff hid).1 hparent)
    obtain ⟨hsp, hsn⟩ := h.slots.siblings id s hs p (h.all p m hm) L R hk
    obtain ⟨hleft, hright⟩ := h.neighbours t hk
    refine ⟨?_, ?_, hdown⟩
    · rw [hleft, hprev, hsp, h.walk_left t hk]
    · have hk' : kids p = (L ++ [id]) ++ R := by rw [hk, List.append_assoc, List.singleton_append]
      rw [hright, hnext, hsn, h.walk_right t hk']

/-- In a pass over a reachable document every node has a handle, and the element links of each are what the walks find. -/
theorem elementLinks_eq_walks {doc : Document} (h : doc.Reachable) {store : StyleStore} {arena : NodeArena}
    (hnew : NodeArena.new doc store = some arena) :
    (∀ id n, doc.get id = some n → arena.node id = (some id, arena.link) ∧ LinksMatchWalks arena.link id) ∧
      ∀ id, arena.link.node id = arena.node id := by
  obtain ⟨kids, t⟩ := h.tree
  obtain ⟨done, hlink⟩ := linking_link t hnew
  refine ⟨fun id n hid => ⟨?_, hlink.linksMatchWalks t hid⟩, fun id => ?_⟩
  · rw [NodeArena.node, ← hlink.withId hid]
    rfl
  · -- the arena is linked once
    have hagain : arena.link.link = arena.link := if_pos hlink.linked
    simp only [NodeArena.node, hagain]

/-- A document whose root holds a text, and after it an element. -/
def textThenElement : Document :=
  let doc := ((Document.new "").create (.text ['a'])).2.linkLast (.fromIndex 0) (.fromIndex 1)
  let p : Element := { name := ⟨none, "", "p"⟩, attrs := [], templateContents := none }
  (doc.create (.element p)).2.linkLast (.fromIndex 0) (.fromIndex 2)

theorem reachable_textThenElement : textThenElement.Reachable := by
  have htext := (Document.Reachable.new "").append (.text ['a']) (.fromIndex 0) (.fromIndex 1) (by decide) (by decide) rfl rfl
  exact htext.append _ _ _ (by decide) (by decide) rfl rfl

/-- The element is the next element sibling of the text, and the first element of the root. -/
theorem elementLinks_eq_walks_sample : ∃ arena, NodeArena.new textThenElement ⟨3⟩ = some arena ∧
    arena.link.nextSiblingElement (.fromIndex 1) = some (.fromIndex 2) ∧
    arena.link.firstElementChild (.fromIndex 0) = some (.fromIndex 2) ∧
    (∀ id n, textThenElement.get id = some n → arena.node id = (some id, arena.link) ∧ LinksMatchWalks arena.link id) ∧
    ∀ id, arena.link.node id = arena.node id := by
  have hnew : NodeArena.new textThenElement ⟨3⟩ = some _ := rfl
  exact ⟨_, hnew, by decide, by decide, elementLinks_eq_walks reachable_textThenElement hnew⟩

end Style

end ChromeLight
