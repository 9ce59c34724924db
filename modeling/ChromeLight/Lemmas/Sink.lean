import ChromeLight.FlatForest
import ChromeLight.Lemmas.Dom

/-!
# What the sink does to a document

The pieces of the sink's methods, over the invariant of a document: a new node is no node before, and is in no child list; a
text that grows changes no link; a node that is linked in at a place goes into one child list there (`Linked`).

The text that may grow is the child in front of the place, so a new text node is made only where there is none.
-/

namespace ChromeLight

open LinkedForest (setKids)
open Forest (Child)

namespace Document

variable {doc doc' : Document} {kids : NodeId → List NodeId}

/-! ## New nodes -/

theorem kind_eq {id : NodeId} (h : doc'.get id = doc.get id) : doc'.forest.kind id = doc.forest.kind id :=
  congrArg (Option.map Node.kind) h

/-- A new node is none of the nodes there are. -/
theorem Tree.ne_create_id (t : Tree doc kids) (kind : NodeKind) {id : NodeId} {n : Node} (h : doc.get id = some n) :
    id ≠ (doc.create kind).1 := by
  rintro rfl
  rw [get_create_id t.capped] at h
  cases h

/-- So the children keep their texts. -/
theorem Tree.text_create (t : Tree doc kids) (kind : NodeKind) (q : NodeId) :
    ∀ c ∈ doc.forest.kids q, (doc.create kind).2.forest.text c = doc.forest.text c := by
  intro c hc
  obtain ⟨n, hn⟩ := t.get_child (t.forest_kids ▸ hc)
  exact OrderedForest.text_congr (kind_eq (get_create_ne kind (t.ne_create_id kind hn)))

/-- A new text node has its text, if there is room for it. -/
theorem text_create_id (h : doc.len < u32Max) (text : StrTendril) :
    (doc.create (.text text)).2.forest.text (doc.create (.text text)).1 = some text := by
  simp only [OrderedForest.text, forest, get_create h, if_true, Option.map_some]

/-! ## Changes of a node -/

/-- A change that leaves the links of the node as they are keeps the invariant. -/
theorem Tree.modify (t : Tree doc kids) (id : NodeId) {f : Node → Node} (h : ∀ n, (f n).links = n.links) :
    Tree (doc.modify id f) kids := by
  have hlinks : (doc.modify id f).links = doc.links := by
    rw [links_modify doc id (g := fun l => l) h]
    funext x
    rw [LinkedForest.Heap.modify_apply]
    split <;> simp
  refine ⟨hlinks ▸ t.represents, t.wf, t.root, ?_, ?_⟩
  · rw [len_modify]
    exact t.nonempty
  · rw [len_modify]
    exact t.capped

/-- A change that makes an element an element, and keeps the kind of any other node, changes no text. -/
theorem text_modify_element (id : NodeId) {f : Node → Node}
    (h : ∀ n, (f n).kind = n.kind ∨ (∃ e, n.kind = .element e) ∧ ∃ e, (f n).kind = .element e) (x : NodeId) :
    (doc.modify id f).forest.text x = doc.forest.text x := by
  simp only [OrderedForest.text, forest, get_modify]
  by_cases hx : x = id
  · rw [if_pos hx]
    cases doc.get x with
    | none => rfl
    | some n =>
      rcases h n with hk | ⟨⟨e, he⟩, e', he'⟩
      · simp [hk]
      · simp [he, he']
  · rw [if_neg hx]

/-- A text node that takes more characters shows them behind its own; no other node changes. -/
theorem text_modify {c : NodeId} {existing : StrTendril} (hc : doc.forest.text c = some existing) (text : StrTendril)
    (x : NodeId) : (doc.modify c fun node => { node with kind := .text (existing ++ text) }).forest.text x
      = if x = c then some (existing ++ text) else doc.forest.text x := by
  by_cases hx : x = c
  · rw [if_pos hx, hx]
    simp only [OrderedForest.text, forest, get_modify, if_true] at hc ⊢
    cases hn : doc.get c with
    | none => simp [hn] at hc
    | some n => rfl
  · rw [if_neg hx]
    refine OrderedForest.text_congr (kind_eq ?_)
    rw [get_modify, if_neg hx]

/-! ## Text that joins a text node -/

theorem mergeIntoTrailingText_of_text {c : NodeId} {existing : StrTendril} (hc : doc.forest.text c = some existing)
    (text : StrTendril) : DomSink.mergeIntoTrailingText doc (some c) text
      = .ok (doc.modify c fun node => { node with kind := .text (existing ++ text) }) := by
  simp only [OrderedForest.text, forest] at hc
  simp only [DomSink.mergeIntoTrailingText]
  cases hk : (doc.get c).map Node.kind with
  | none => simp [hk] at hc
  | some kind =>
    cases kind <;> simp [hk] at hc ⊢
    exact hc ▸ rfl

theorem mergeIntoTrailingText_of_none {candidate : Option NodeId} (h : ∀ c ∈ candidate, doc.forest.text c = none)
    (text : StrTendril) : DomSink.mergeIntoTrailingText doc candidate text = .error text := by
  cases candidate with
  | none => rfl
  | some c =>
    have hc := h c rfl
    simp only [OrderedForest.text, forest] at hc
    simp only [DomSink.mergeIntoTrailingText]
    cases hk : (doc.get c).map Node.kind with
    | none => rfl
    | some kind => cases kind <;> simp [hk] at hc ⊢

end Document

/-! ## Places -/

namespace Place

/-- Link a node in at a place. -/
def link (doc : Document) : Place → NodeId → Part (Except DomError Unit × Document)
  | .last parent, id => doc.appendChild parent id
  | .before sibling, id => doc.insertBefore sibling id

/-- The child in front of a place, as the links of the document have it. -/
def candidate (doc : Document) : Place → Option NodeId
  | .last parent => (doc.get parent).bind (·.lastChild)
  | .before sibling => (doc.get sibling).bind (·.prevSibling)

end Place

namespace Document

variable {doc doc' : Document} {kids : NodeId → List NodeId} {place : Place} {p : NodeId} {L R : List NodeId}

theorem Tree.candidate_eq (t : Tree doc kids) (hb : place.Between doc.forest p L R) : place.candidate doc = L.getLast? := by
  cases place with
  | last parent =>
    obtain ⟨rfl, hp, rfl, -⟩ := hb
    obtain ⟨n, hn⟩ := known_iff.1 hp
    rw [Place.candidate, hn, Option.bind_some, t.forest_kids]
    exact t.represents.last _ _ (links_eq_some hn)
  | before sibling =>
    obtain ⟨hk, hR⟩ := hb
    obtain ⟨R', rfl⟩ := List.head?_eq_some_iff.1 hR
    rw [t.forest_kids] at hk
    obtain ⟨n, hn⟩ := t.get_child (hk ▸ List.mem_append_right _ List.mem_cons_self)
    rw [Place.candidate, hn, Option.bind_some]
    exact (t.represents.place p L sibling R' n.links hk (links_eq_some hn)).1

/-- Where there is a child in front, there is a place. -/
theorem Tree.exists_between (t : Tree doc kids) {c : NodeId} (h : place.candidate doc = some c) :
    ∃ p L R, place.Between doc.forest p L R := by
  cases place with
  | last parent =>
    obtain ⟨n, hn, -⟩ := Option.bind_eq_some_iff.1 h
    exact ⟨parent, _, [], rfl, known_iff.2 ⟨n, hn⟩, rfl, rfl⟩
  | before sibling =>
    obtain ⟨n, hn, hprev⟩ := Option.bind_eq_some_iff.1 h
    cases hp : n.parent with
    | none =>
      -- a node without parent has no sibling either
      have horphan : n.prevSibling = none := (t.represents.orphan sibling n.links (links_eq_some hn) hp).1
      rw [horphan] at hprev
      cases hprev
    | some p =>
      obtain ⟨L, R, hk⟩ := List.append_of_mem ((t.parent_iff hn).1 hp)
      exact ⟨p, L, sibling :: R, t.forest_kids ▸ hk, rfl⟩

/-- A node is not linked in, because there is no place where it may be attached; or it is linked in at the place. -/
inductive Linked (doc : Document) (place : Place) (id : NodeId) : Part (Except DomError Unit × Document) → Prop where
  | refused {e : DomError} (h : ∀ p L R, place.Between doc.forest p L R → ¬doc.forest.Attachable doc.root p id) :
      Linked doc place id (.some (.error e, doc))
  | done {doc' : Document} {p : NodeId} {L R : List NodeId} (hb : place.Between doc.forest p L R)
      (ha : doc.forest.Attachable doc.root p id) (t : Tree doc' (setKids doc.forest.kids p (L ++ id :: R)))
      (hk : doc'.forest.kind = doc.forest.kind) : Linked doc place id (.some (.ok (), doc'))

theorem Tree.linked (t : Tree doc kids) (place : Place) (id : NodeId) : Linked doc place id (place.link doc id) := by
  cases place with
  | last parent =>
    have hout := t.appendChild parent id
    rw [Place.link]
    generalize doc.appendChild parent id = result at hout
    cases hout with
    | refused h =>
      refine .refused ?_
      rintro p L R ⟨rfl, -⟩ ha
      rw [OrderedForest.attachRefusal_eq_none_iff.2 ha] at h
      cases h
    | done h t' hk =>
      have ha := OrderedForest.attachRefusal_eq_none_iff.1 h
      exact .done ⟨rfl, ha.knownParent, rfl, rfl⟩ ha t' hk
  | before sibling =>
    have hout := t.insertBefore sibling id
    rw [Place.link]
    generalize doc.insertBefore sibling id = result at hout
    cases hout with
    | refused h =>
      refine .refused ?_
      rintro p L R ⟨hk, hR⟩ ha
      have hs : sibling ∈ doc.forest.kids p := hk ▸ List.mem_append_right _ (List.mem_of_mem_head? hR)
      rw [t.insertRefusal_eq_none_iff.2 ⟨p, hs, ha⟩] at h
      cases h
    | done h t' hk =>
      obtain ⟨p, hs, ha⟩ := t.insertRefusal_eq_none_iff.1 h
      obtain ⟨L, R, hkids⟩ := List.append_of_mem hs
      refine .done ⟨hkids, rfl⟩ ha ?_ (hk.trans ?_)
      · rw [OrderedForest.insertBefore, (OrderedForest.parent_eq_some_iff t.forest_uniqueParents).2 hs] at t'
        simp only [hkids] at t'
        rwa [LinkedForest.insertIdx_idxOf] at t'
        exact t.represents.not_mem_left (t.forest_kids ▸ hkids)
      · rw [OrderedForest.insertBefore, (OrderedForest.parent_eq_some_iff t.forest_uniqueParents).2 hs]

/-! ## A new node at a place -/

theorem Tree.between_create (t : Tree doc kids) (kind : NodeKind) (hp : p ≠ (doc.create kind).1) :
    place.Between (doc.create kind).2.forest p L R ↔ place.Between doc.forest p L R := by
  have hkids : (doc.create kind).2.forest.kids = doc.forest.kids := (t.create kind).forest_kids.trans t.forest_kids.symm
  cases place with
  | last parent =>
    rw [Place.Between, Place.Between, hkids, OrderedForest.Known, OrderedForest.Known, kind_eq (get_create_ne kind hp)]
  | before sibling => rw [Place.Between, Place.Between, hkids]

theorem Tree.known_of_between (t : Tree doc kids) (hb : place.Between doc.forest p L R) : doc.forest.Known p := by
  cases place with
  | last parent => exact hb.2.1
  | before sibling =>
    obtain ⟨hk, hR⟩ := hb
    have hs : sibling ∈ kids p := t.forest_kids ▸ hk ▸ List.mem_append_right _ (List.mem_of_mem_head? hR)
    obtain ⟨n, hn⟩ := t.get_parent hs
    exact known_iff.2 ⟨n, hn⟩

/-- A new node may be attached under every node there is. -/
theorem Tree.attachable_create (t : Tree doc kids) (kind : NodeKind) (hroom : doc.len < u32Max) (hp : doc.forest.Known p) :
    (doc.create kind).2.forest.Attachable doc.root p (doc.create kind).1 := by
  obtain ⟨m, hm⟩ := known_iff.1 hp
  obtain ⟨r, hr⟩ := t.get_root
  have hne := t.ne_create_id kind hm
  refine (t.create kind).attachable_iff.2 ⟨⟨m, ?_⟩, ⟨{ kind }, ?_, rfl⟩, (t.ne_create_id kind hr).symm, ?_⟩
  · rw [get_create_ne kind hne, hm]
  · rw [get_create hroom, if_pos rfl]
  · -- nothing is below a new node
    intro hup
    rcases Relation.ReflTransGen.cases_tail hup with h | ⟨c, -, hc⟩
    · exact hne h.symm
    · rw [Child, t.represents.absent _ (links_eq_none (get_create_id t.capped kind))] at hc
      exact absurd hc List.not_mem_nil

/-- A node that may be attached was created. -/
theorem Tree.room_of_attachable (t : Tree doc kids) {kind : NodeKind} {root : NodeId}
    (h : (doc.create kind).2.forest.Attachable root p (doc.create kind).1) : doc.len < u32Max := by
  by_contra hfull
  obtain ⟨n, hn⟩ := known_iff.1 h.knownChild
  rw [create_full hfull, get_create_id t.capped] at hn
  cases hn

end Document

end ChromeLight
