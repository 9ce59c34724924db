import ChromeLight.StyleRecords
import ChromeLight.Theorems.Traverse

/-!
# Lemmas on the records of a style pass

Where the handles lead: each link is one of the document, to a relative of the node (`Related`), so what is reached from below the
root stays below it. Then what an answered call does to the records (`Records.Step`), and what a run of calls has done to them
(`Records.History`).
-/

namespace ChromeLight

namespace Style

open Document (Tree)
open Forest (Child)

variable {doc : Document} {kids : NodeId → List NodeId} {id c : NodeId}

/-! ## Where handles lead -/

/-- A node, and its child, its parent or its sibling. -/
inductive Related (kids : NodeId → List NodeId) (id c : NodeId) : Prop where
  | child (h : c ∈ kids id)
  | parent (h : id ∈ kids c)
  | sibling (p : NodeId) (h : id ∈ kids p) (hc : c ∈ kids p)

/-- A node at or below the root. -/
def Below (doc : Document) (kids : NodeId → List NodeId) (id : NodeId) : Prop := Relation.ReflTransGen (Child kids) id doc.root

theorem Below.parent (t : Tree doc kids) {p : NodeId} (h : Below doc kids id) (hp : id ∈ kids p) : Below doc kids p := by
  rcases Relation.ReflTransGen.cases_head h with rfl | ⟨q, hq, hbelow⟩
  · exact absurd hp (t.root p)
  · obtain rfl := t.represents.uniqueParents.parent id p q hp hq
    exact hbelow

/-- What is below the root has its relatives there. -/
theorem Below.related (t : Tree doc kids) (h : Below doc kids id) (hc : Related kids id c) : Below doc kids c := by
  cases hc with
  | child hc => exact .head hc h
  | parent hp => exact h.parent t hp
  | sibling p hp hc => exact .head hc (h.parent t hp)

theorem Below.known (t : Tree doc kids) (h : Below doc kids id) : ∃ n, doc.get id = some n := by
  rcases Relation.ReflTransGen.cases_head h with rfl | ⟨p, hp, -⟩
  · exact t.get_root
  · exact t.get_child hp

theorem Related.known (t : Tree doc kids) (h : Related kids id c) : ∃ n, doc.get c = some n := by
  cases h with
  | child hc => exact t.get_child hc
  | parent hp => exact t.get_parent hp
  | sibling p hp hc => exact t.get_child hc

/-- The links of a node lead to its relatives. -/
theorem related_read (t : Tree doc kids) {link : NodeLink} (h : (doc.get id).bind link.read = some c) : Related kids id c := by
  obtain ⟨n, hn, hlink⟩ := Option.bind_eq_some_iff.1 h
  have hlinks := Document.links_eq_some hn
  have hsibling : ∀ d : Option NodeId, d = some c →
      (∀ p L R, kids p = L ++ id :: R → d = L.getLast? ∨ d = R.head?) → (n.parent = none → d = none) → Related kids id c := by
    intro d hd hplace horphan
    cases hp : n.parent with
    | none => exact absurd (hd.symm.trans (horphan hp)) (by simp)
    | some p =>
      have hmem := (t.parent_iff hn).1 hp
      obtain ⟨L, R, hk⟩ := List.append_of_mem hmem
      refine .sibling p hmem ?_
      rcases hplace p L R hk with hL | hR
      · have := List.mem_of_getLast? (hL.symm.trans hd)
        simp [hk, this]
      · have := List.mem_of_head? (hR.symm.trans hd)
        simp [hk, this]
  cases link with
  | parentNode => exact .parent ((t.parent_iff hn).1 hlink)
  | firstChild => exact .child (List.mem_of_head? ((t.represents.first id n.links hlinks).symm.trans hlink))
  | lastChild => exact .child (List.mem_of_getLast? ((t.represents.last id n.links hlinks).symm.trans hlink))
  | prevSibling =>
    exact hsibling _ hlink (fun p L R hk => .inl (t.represents.place p L id R n.links hk hlinks).1)
      fun hp => (t.represents.orphan id n.links hlinks hp).1
  | nextSibling =>
    exact hsibling _ hlink (fun p L R hk => .inr (t.represents.place p L id R n.links hk hlinks).2)
      fun hp => (t.represents.orphan id n.links hlinks hp).2

/-- The siblings of a node, at its place in a child list. -/
theorem siblings_eq (t : Tree doc kids) {p : NodeId} {L R : List NodeId} (hk : kids p = L ++ id :: R) :
    siblingsBefore doc id = L ∧ siblingsAfter doc id = R := by
  have hp : (doc.get id).bind Node.parent = some p := (t.bind_parent id p).2 (by simp [hk])
  have hnd : (L ++ id :: R).Nodup := hk ▸ t.represents.nodup p
  have hL : ∀ x ∈ L, decide (x ≠ id) = true := by
    rintro x hx
    refine decide_eq_true ?_
    rintro rfl
    exact List.disjoint_of_nodup_append hnd hx List.mem_cons_self
  rw [siblingsBefore, siblingsAfter, hp]
  simp only [t.children_eq, hk]
  rw [List.takeWhile_append_of_pos hL, List.dropWhile_append_of_pos hL]
  simp

theorem siblings_of_orphan (h : (doc.get id).bind Node.parent = none) : siblingsBefore doc id = [] ∧ siblingsAfter doc id = [] := by
  rw [siblingsBefore, siblingsAfter, h]
  exact ⟨rfl, rfl⟩

/-- The siblings of a node are children of its parent. -/
theorem related_of_siblings (t : Tree doc kids) (h : c ∈ siblingsBefore doc id ∨ c ∈ siblingsAfter doc id) : Related kids id c := by
  cases hp : (doc.get id).bind Node.parent with
  | none =>
    obtain ⟨hb, ha⟩ := siblings_of_orphan hp
    simp [hb, ha] at h
  | some p =>
    have hmem := (t.bind_parent id p).1 hp
    obtain ⟨L, R, hk⟩ := List.append_of_mem hmem
    obtain ⟨hb, ha⟩ := siblings_eq t hk
    rw [hb, ha] at h
    refine .sibling p hmem ?_
    rw [hk]
    rcases h with h | h <;> simp [h]

/-- The links of an element lead to relatives that are elements. -/
theorem related_readElement (t : Tree doc kids) {link : ElementLink} (h : link.read doc id = some c) :
    Related kids id c ∧ isElement doc c = true := by
  cases link with
  | parentElement =>
    obtain ⟨hp, hc⟩ := Option.filter_eq_some_iff.1 h
    exact ⟨.parent ((t.bind_parent id c).1 hp), hc⟩
  | prevSiblingElement =>
    exact ⟨related_of_siblings t (.inl (List.mem_reverse.1 (List.mem_of_find?_eq_some h))), List.find?_some h⟩
  | nextSiblingElement => exact ⟨related_of_siblings t (.inr (List.mem_of_find?_eq_some h)), List.find?_some h⟩
  | firstElementChild =>
    have hc := List.mem_of_find?_eq_some h
    rw [t.children_eq] at hc
    exact ⟨.child hc, List.find?_some h⟩

/-! ## What was asked for -/

theorem mem_addNew {l : List NodeId} {id c : NodeId} : c ∈ addNew l id ↔ c ∈ l ∨ c = id := by
  unfold addNew
  split
  · rename_i h
    exact ⟨.inl, fun hc => hc.elim (fun h => h) fun hc => hc ▸ h⟩
  · simp

theorem mem_addNew_of_ne {l : List NodeId} {id c : NodeId} (h : c ≠ id) : c ∈ addNew l id ↔ c ∈ l := by
  rw [mem_addNew, or_iff_left h]

theorem nodup_addNew {l : List NodeId} (h : l.Nodup) (id : NodeId) : (addNew l id).Nodup := by
  unfold addNew
  split
  · exact h
  · rename_i hid
    rw [← List.concat_eq_append]
    exact h.concat hid

/-- What is done for the elements asked for, when one more is asked for. -/
theorem filter_addNew (l : List NodeId) (id : NodeId) (p : NodeId → Bool) :
    (addNew l id).filter p = if id ∈ l then l.filter p else l.filter p ++ if p id then [id] else [] := by
  unfold addNew
  split
  · rfl
  · rw [List.filter_append, List.filter_cons, List.filter_nil]

/-- Asking once more. -/
theorem mem_asked {κ : Type} {past : List (ThreadId × κ)} {asks : κ → Option NodeId} {l : List NodeId}
    (h : ∀ id, id ∈ l ↔ ∃ k ∈ past, asks k.2 = some id) (k : ThreadId × κ) (id : NodeId) :
    id ∈ (asks k.2).elim l (addNew l) ↔ ∃ k' ∈ past ++ [k], asks k'.2 = some id := by
  have hsplit : (∃ k' ∈ past ++ [k], asks k'.2 = some id) ↔ id ∈ l ∨ asks k.2 = some id := by
    rw [h]
    constructor
    · rintro ⟨k', hk', hid⟩
      rcases List.mem_append.1 hk' with hk' | hk'
      · exact .inl ⟨k', hk', hid⟩
      · exact .inr (List.mem_singleton.1 hk' ▸ hid)
    · rintro (⟨k', hk', hid⟩ | hid)
      · exact ⟨k', List.mem_append_left _ hk', hid⟩
      · exact ⟨k, by simp, hid⟩
  rw [hsplit]
  cases asks k.2 with
  | none => simp
  | some e =>
    rw [Option.elim_some, mem_addNew, Option.some.injEq]
    exact or_congr_right eq_comm

/-! ## What a call does -/

section

variable {υ ρ δ β φ γ : Type} {S : Stylo υ δ β φ γ} {C : Net.UrlCrate υ ρ} {r r' : Records δ φ} {thread : ThreadId}

/-- What Stylo has handles of is below the root, and an element if the handle is one of an element; only such elements have data. -/
structure Records.Sound (kids : NodeId → List NodeId) (r : Records δ φ) : Prop where
  nodes : ∀ id ∈ r.nodes, Below r.doc kids id
  elements : ∀ id ∈ r.elements, Below r.doc kids id ∧ isElement r.doc id = true
  styled : ∀ id, (r.record id).data.isSome = true → Below r.doc kids id ∧ isElement r.doc id = true

theorem Records.owned_eq_some {α : Type} {x y : α} (h : r.owned thread x = some y) : x = y := by
  unfold Records.owned at h
  split at h
  · exact Option.some.inj h
  · nomatch h

variable [Inhabited δ]

/-- The node of a handle that a call is made through. -/
def Call.node (call : Call δ φ) : NodeId := call.handle.elim (fun node => node) (fun element => element)

/-- What a call does to the records. -/
structure Records.Step (kids : NodeId → List NodeId) (call : Call δ φ) (r r' : Records δ φ) : Prop where
  doc : r'.doc = r.doc
  owner : r'.owner = r.owner
  askedIds : r'.askedIds = call.asksId.elim r.askedIds (addNew r.askedIds)
  askedStyles : r'.askedStyles = call.asksStyle.elim r.askedStyles (addNew r.askedStyles)
  data : ∀ id, (r'.record id).data = call.onData id (r.record id).data
  nodes : ∀ c ∈ r'.nodes, c ∈ r.nodes ∨ c = call.node ∨ Related kids call.node c
  elements : ∀ c ∈ r'.elements, c ∈ r.elements ∨ (c = call.node ∨ Related kids call.node c) ∧ isElement r.doc c = true
  kept : ∀ c ∈ r.elements, c ∈ r'.elements

/-- A change of one record that is all a call does. -/
theorem Records.Step.modify {call : Call δ φ} (id : NodeId) (f : Record δ φ → Record δ φ) (hid : call.asksId = none)
    (hstyle : call.asksStyle = none) (hself : (f (r.record id)).data = call.onData id (r.record id).data)
    (hothers : ∀ c, c ≠ id → call.onData c (r.record c).data = (r.record c).data) : Records.Step kids call r (r.modify id f) where
  doc := rfl
  owner := rfl
  askedIds := by rw [hid]; rfl
  askedStyles := by rw [hstyle]; rfl
  data c := by
    by_cases hc : c = id
    · rw [hc, r.record_modify_self, hself]
    · rw [r.record_modify_of_ne hc, hothers c hc]
  nodes _ h := .inl h
  elements _ h := .inl h
  kept _ h := h

/-- A call that leaves the records as they are. -/
theorem Records.Step.same {call : Call δ φ} (hid : call.asksId = none) (hstyle : call.asksStyle = none)
    (hdata : ∀ id data, call.onData id data = data) : Records.Step kids call r r where
  doc := rfl
  owner := rfl
  askedIds := by rw [hid]; rfl
  askedStyles := by rw [hstyle]; rfl
  data id := (hdata id _).symm
  nodes _ h := .inl h
  elements _ h := .inl h
  kept _ h := h

/-- A call leaves data where there were some, or at the element it is made through. -/
theorem Call.isSome_onData {call : Call δ φ} {data : Option δ} (h : (call.onData id data).isSome = true) :
    data.isSome = true ∨ call.handle = .inr id := by
  have hown : ∀ (element : NodeId) (x : Option δ), (if id = element then x else data).isSome = true →
      data.isSome = true ∨ (.inr element : NodeId ⊕ NodeId) = .inr id := by
    intro element x hx
    by_cases hid : id = element
    · exact .inr (congrArg _ hid.symm)
    · rw [if_neg hid] at hx
      exact .inl hx
  cases call with
  | ensureData element write => exact hown element _ h
  | clearData element => exact hown element _ h
  | mutateData element write => exact hown element _ h
  | _ => exact .inl h

/-- Data are there until they are cleared. -/
theorem Call.isSome_onData_of_ne {call : Call δ φ} {data : Option δ} (h : data.isSome = true) (hclear : call ≠ .clearData id) :
    (call.onData id data).isSome = true := by
  have hown : ∀ (element : NodeId) (x : Option δ), (id = element → x.isSome = true) →
      (if id = element then x else data).isSome = true := by
    intro element x hx
    by_cases hid : id = element
    · rw [if_pos hid]
      exact hx hid
    · rwa [if_neg hid]
  cases call with
  | ensureData element write => exact hown element _ fun _ => rfl
  | clearData element => exact hown element _ fun hid => absurd (congrArg _ hid.symm) hclear
  | mutateData element write => exact hown element _ fun _ => by rwa [Option.isSome_map]
  | _ => exact h

/-- A call through a handle that Stylo has keeps its handles, and the nodes with data, below the root. -/
theorem Records.Sound.step (hr : r.Sound kids) (t : Tree r.doc kids) {call : Call δ φ} (hheld : r.Holds call.handle = true)
    (h : Records.Step kids call r r') : r'.Sound kids := by
  have hnode : Below r.doc kids call.node := by
    unfold Call.node
    cases hhandle : call.handle with
    | inl node => exact hr.nodes node (of_decide_eq_true (hhandle ▸ hheld : r.Holds (.inl node) = true))
    | inr element => exact (hr.elements element (of_decide_eq_true (hhandle ▸ hheld : r.Holds (.inr element) = true))).1
  have hreached : ∀ c, c = call.node ∨ Related kids call.node c → Below r.doc kids c := by
    rintro c (rfl | hc)
    · exact hnode
    · exact hnode.related t hc
  constructor
  case nodes =>
    intro c hc
    rw [h.doc]
    rcases h.nodes c hc with hc | hc
    · exact hr.nodes c hc
    · exact hreached c hc
  case elements =>
    intro c hc
    rw [h.doc]
    rcases h.elements c hc with hc | ⟨hc, helement⟩
    · exact hr.elements c hc
    · exact ⟨hreached c hc, helement⟩
  case styled =>
    intro c hc
    rw [h.doc]
    rw [h.data] at hc
    rcases Call.isSome_onData hc with hc | hhandle
    · exact hr.styled c hc
    · exact hr.elements c (of_decide_eq_true (hhandle ▸ hheld : r.Holds (.inr c) = true))

variable [DecidableEq φ]

/-- Selector flags change no data, and nothing but records. -/
theorem Records.Step.insertFlags {call : Call δ φ} (targets : List (NodeId × Finset φ)) (h : Records.Step kids call r r') :
    Records.Step kids call r (targets.foldl (fun r target => r.insertFlags target.2 target.1) r') := by
  induction targets generalizing r' with
  | nil => exact h
  | cons target targets ih =>
    refine ih { h with data := fun id => ?_ }
    rw [← h.data id]
    show ((r'.modify target.1 _).record id).data = _
    by_cases hid : id = target.1
    · rw [hid, Records.record_modify_self]
    · rw [Records.record_modify_of_ne _ hid]

/-- What an answered call does to the records. -/
theorem Records.step_of_perform (t : Tree r.doc kids) {call : Call δ φ} {a : Answer δ β φ}
    (h : r.perform S C thread call = some (a, r')) : Records.Step kids call r r' := by
  cases call with
  | follow link node =>
    obtain ⟨-, rfl⟩ := Prod.mk.inj (Option.some.inj h)
    refine { Records.Step.same rfl rfl fun _ _ => rfl with nodes := fun c hc => ?_ }
    rcases List.mem_append.1 hc with hc | hc
    · exact .inr (.inr (related_read t (Option.mem_toList.1 hc)))
    · exact .inl hc
  | asElement node =>
    obtain ⟨-, rfl⟩ := Prod.mk.inj (Option.some.inj h)
    refine { Records.Step.same rfl rfl fun _ _ => rfl with
      elements := fun c hc => ?_
      kept := fun c hc => List.mem_append_right _ hc }
    rcases List.mem_append.1 hc with hc | hc
    · obtain ⟨helement, heq⟩ := Option.ite_none_right_eq_some.1 (Option.mem_toList.1 hc)
      obtain rfl := Option.some.inj heq
      exact .inr ⟨.inl rfl, helement⟩
    · exact .inl hc
  | asNode element =>
    obtain ⟨-, rfl⟩ := Prod.mk.inj (Option.some.inj h)
    refine { Records.Step.same rfl rfl fun _ _ => rfl with nodes := fun c hc => ?_ }
    rcases List.mem_cons.1 hc with rfl | hc
    · exact .inr (.inl rfl)
    · exact .inl hc
  | followElement link element =>
    obtain ⟨-, rfl⟩ := Prod.mk.inj (Option.some.inj h)
    refine { Records.Step.same rfl rfl fun _ _ => rfl with
      elements := fun c hc => ?_
      kept := fun c hc => List.mem_append_right _ hc }
    rcases List.mem_append.1 hc with hc | hc
    · obtain ⟨hrelated, helement⟩ := related_readElement t (Option.mem_toList.1 hc)
      exact .inr ⟨.inr hrelated, helement⟩
    · exact .inl hc
  | traversalChildren element =>
    obtain ⟨-, rfl⟩ := Prod.mk.inj (Option.some.inj h)
    refine { Records.Step.same rfl rfl fun _ _ => rfl with nodes := fun c hc => ?_ }
    rcases List.mem_append.1 hc with hc | hc
    · have hchild := List.mem_of_mem_filter hc
      rw [t.children_eq] at hchild
      exact .inr (.inr (.child hchild))
    · exact .inl hc
  | id element =>
    obtain ⟨-, rfl⟩ := Prod.mk.inj (Records.owned_eq_some h)
    exact ⟨rfl, rfl, rfl, rfl, fun _ => rfl, fun _ => .inl, fun _ => .inl, fun _ => id⟩
  | hasId element own caseSensitivity =>
    obtain ⟨-, rfl⟩ := Prod.mk.inj (Records.owned_eq_some h)
    exact ⟨rfl, rfl, rfl, rfl, fun _ => rfl, fun _ => .inl, fun _ => .inl, fun _ => id⟩
  | styleAttribute element =>
    obtain ⟨-, rfl⟩ := Prod.mk.inj (Records.owned_eq_some h)
    exact ⟨rfl, rfl, rfl, rfl, fun _ => rfl, fun _ => .inl, fun _ => .inl, fun _ => id⟩
  | applySelectorFlags element flags =>
    obtain ⟨-, heq⟩ := Option.ite_none_right_eq_some.1 h
    obtain ⟨-, rfl⟩ := Prod.mk.inj (Option.some.inj heq)
    exact (Records.Step.same rfl rfl fun _ _ => rfl).insertFlags _
  | hasSelectorFlags element flags =>
    obtain ⟨-, rfl⟩ := Prod.mk.inj (Option.some.inj h)
    exact .same rfl rfl fun _ _ => rfl
  | relativeSelectorSearchDirection element =>
    obtain ⟨-, rfl⟩ := Prod.mk.inj (Option.some.inj h)
    exact .same rfl rfl fun _ _ => rfl
  | ensureData element write =>
    obtain ⟨-, rfl⟩ := Prod.mk.inj (Records.owned_eq_some h)
    exact .modify element _ rfl rfl (if_pos rfl).symm fun c hc => if_neg hc
  | clearData element =>
    obtain ⟨-, rfl⟩ := Prod.mk.inj (Records.owned_eq_some h)
    exact .modify element _ rfl rfl (if_pos rfl).symm fun c hc => if_neg hc
  | hasData element =>
    obtain ⟨-, rfl⟩ := Prod.mk.inj (Option.some.inj h)
    exact .same rfl rfl fun _ _ => rfl
  | borrowData element =>
    obtain ⟨-, rfl⟩ := Prod.mk.inj (Option.some.inj h)
    exact .same rfl rfl fun _ _ => rfl
  | mutateData element write =>
    obtain ⟨-, rfl⟩ := Prod.mk.inj (Records.owned_eq_some h)
    exact .modify element _ rfl rfl (if_pos rfl).symm fun c hc => if_neg hc
  | setDirtyDescendants element dirty =>
    obtain ⟨-, rfl⟩ := Prod.mk.inj (Records.owned_eq_some h)
    exact .modify element _ rfl rfl rfl fun _ _ => rfl
  | hasDirtyDescendants element =>
    obtain ⟨-, rfl⟩ := Prod.mk.inj (Option.some.inj h)
    exact .same rfl rfl fun _ _ => rfl
  | storeChildrenToProcess element n =>
    obtain ⟨-, rfl⟩ := Prod.mk.inj (Records.owned_eq_some h)
    exact .modify element _ rfl rfl rfl fun _ _ => rfl
  | didProcessChild element =>
    obtain ⟨-, rfl⟩ := Prod.mk.inj (Records.owned_eq_some h)
    exact .modify element _ rfl rfl rfl fun _ _ => rfl

/-- On the thread of the pass no call is refused. -/
theorem Records.isSome_perform (h : thread = r.owner) (call : Call δ φ) : (r.perform S C thread call).isSome = true := by
  cases call <;> simp [Records.perform, Records.owned, h]

end

/-! ## Runs -/

theorem isElement_iff : isElement doc id = true ↔ (doc.element id).isSome = true := by
  unfold isElement Document.element
  cases hget : doc.get id with
  | none => simp
  | some n => cases hkind : n.kind <;> simp [hkind]

/-- The root element is an element, and below the root. -/
theorem rootElement_spec (t : Tree doc kids) {root : NodeId} (h : rootElement doc = some root) :
    root ∈ kids doc.root ∧ isElement doc root = true := by
  have hmem := List.mem_of_find?_eq_some h
  have helement : (doc.element root).isSome = true := (List.find?_eq_some_iff_append.1 h).1
  rw [t.children_eq] at hmem
  exact ⟨hmem, isElement_iff.2 helement⟩

section

variable {υ ρ δ β φ γ : Type} [Inhabited δ] {S : Stylo υ δ β φ γ} {C : Net.UrlCrate υ ρ} {r r' : Records δ φ}

/-- The records after some calls. -/
structure Records.History (S : Stylo υ δ β φ γ) (doc : Document) (kids : NodeId → List NodeId) (owner : ThreadId) (root : NodeId)
    (past : List (ThreadId × Call δ φ)) (r : Records δ φ) : Prop where
  doc : r.doc = doc
  owner : r.owner = owner
  sound : r.Sound kids
  idsNodup : r.askedIds.Nodup
  stylesNodup : r.askedStyles.Nodup
  askedIds : ∀ id, id ∈ r.askedIds ↔ ∃ k ∈ past, k.2.asksId = some id
  askedStyles : ∀ id, id ∈ r.askedStyles ↔ ∃ k ∈ past, k.2.asksStyle = some id
  data : ∀ id, (r.record id).data = Call.dataAfter S root past id

theorem Records.data_start (doc : Document) (owner : ThreadId) (root id : NodeId) :
    ((Records.start S doc owner root : Records δ φ).record id).data =
      if id = root then some (S.insertRestyleSubtree default) else none := by
  simp only [Records.start, Function.update_apply]
  split <;> rfl

theorem Records.history_start (t : Tree doc kids) {root : NodeId} (hroot : rootElement doc = some root) (owner : ThreadId) :
    Records.History S doc kids owner root [] (Records.start S doc owner root : Records δ φ) := by
  obtain ⟨hmem, helement⟩ := rootElement_spec t hroot
  have hbelow : Below doc kids root := .single hmem
  constructor
  case doc => rfl
  case owner => rfl
  case sound =>
    refine ⟨fun id h => absurd h List.not_mem_nil, fun id h => ?_, fun id h => ?_⟩
    · obtain rfl := List.mem_singleton.1 h
      exact ⟨hbelow, helement⟩
    · by_cases hid : id = root
      · subst hid
        exact ⟨hbelow, helement⟩
      · rw [Records.data_start, if_neg hid] at h
        nomatch h
  case idsNodup => exact List.nodup_nil
  case stylesNodup => exact List.nodup_nil
  case askedIds => exact fun id => by simp [Records.start]
  case askedStyles => exact fun id => by simp [Records.start]
  case data => exact Records.data_start doc owner root

theorem Records.History.call [DecidableEq φ] (t : Tree doc kids) {owner : ThreadId} {root : NodeId} {past : List (ThreadId × Call δ φ)}
    (h : Records.History S doc kids owner root past r) {k : ThreadId × Call δ φ} {a : Answer δ β φ}
    (hcall : r.call S C k = some (a, r')) : Records.History S doc kids owner root (past ++ [k]) r' := by
  obtain ⟨hheld, hperform⟩ := Option.ite_none_right_eq_some.1 hcall
  have ht : Tree r.doc kids := h.doc.symm ▸ t
  have hstep := Records.step_of_perform ht hperform
  have hnodup : ∀ (asked : Option NodeId) {l : List NodeId}, l.Nodup → (asked.elim l (addNew l)).Nodup := by
    intro asked l hl
    cases asked with
    | none => exact hl
    | some id => exact nodup_addNew hl id
  constructor
  case doc => rw [hstep.doc, h.doc]
  case owner => rw [hstep.owner, h.owner]
  case sound => exact h.sound.step ht hheld hstep
  case idsNodup => exact hstep.askedIds ▸ hnodup _ h.idsNodup
  case stylesNodup => exact hstep.askedStyles ▸ hnodup _ h.stylesNodup
  case askedIds => exact fun id => hstep.askedIds ▸ mem_asked h.askedIds k id
  case askedStyles => exact fun id => hstep.askedStyles ▸ mem_asked h.askedStyles k id
  case data =>
    intro id
    rw [hstep.data, h.data, Call.dataAfter, Call.dataAfter, List.foldl_append]
    rfl

end

end Style

end ChromeLight
