import ChromeLight.Lemmas.Sink

/-!
# The parser's sink loses no text

Every call of the tree builder returns, keeps texts apart, and does to the flat lists of the document what it asks for: a node
or text that is accepted at a place shows there, and nothing else changes. So after any sequence of permitted calls the flat
lists of the document are the requested ones, and no node has two adjacent text children.
-/

namespace ChromeLight

open LinkedForest (setKids)
open Forest (Child)
open Document

namespace DomSink

variable {doc doc' : Document} {kids : NodeId → List NodeId} {place : Place}

/-- What holds of the sink's document: the invariant of documents, and texts are apart. -/
structure Sound (doc : Document) : Prop where
  tree : Tree doc doc.forest.kids
  apart : doc.forest.Separated

/-- A call returns, and leaves a sound document with these flat lists. -/
def Leaves (lists : FlatLists) (result : Part Document) : Prop :=
  ∃ doc, result = .some doc ∧ Sound doc ∧ doc.forest.flat = lists

/-- A call that changes neither a child list nor the texts in one. -/
theorem Sound.leaves_same (hs : Sound doc) (t : Tree doc' doc.forest.kids)
    (ht : ∀ q, ∀ c ∈ doc.forest.kids q, doc'.forest.text c = doc.forest.text c) : Leaves doc.forest.flat (.some doc') := by
  have hk : doc'.forest.kids = doc.forest.kids := t.forest_kids
  exact ⟨doc', rfl, ⟨hk ▸ t, OrderedForest.separated_congr hk ht hs.apart⟩, OrderedForest.flat_congr hk ht⟩

/-- A call that puts what is accepted where it is wanted. -/
theorem Sound.leaves_inserted (hs : Sound doc) {child : NodeOrText} (hacc : Accepted doc place child)
    (hp : place.NotBeforeText doc.forest) {p : NodeId} {L R : List NodeId} (hb : place.Between doc.forest p L R)
    (t : Tree doc' kids) (hsep : doc'.forest.Separated)
    (hg : OrderedForest.Gains doc.forest doc'.forest p L R child.content) :
    Leaves (inserted doc place child doc.forest.flat) (.some doc') := by
  refine ⟨doc', rfl, ⟨t.forest_kids ▸ t, hsep⟩, ?_⟩
  rw [inserted, if_pos hacc]
  exact hg.flat_eq hs.tree.forest_uniqueParents hb hp

/-! ## New nodes -/

theorem Sound.create (hs : Sound doc) (kind : NodeKind) : Leaves doc.forest.flat (.some (doc.create kind).2) :=
  hs.leaves_same (hs.tree.create kind) (hs.tree.text_create kind)

/-- The template's fragment is one more node, and an element stays an element. -/
theorem Sound.createElement (hs : Sound doc) (name : QualName) (attrs : List Attr) (flags : ElementFlags) :
    Leaves doc.forest.flat (.some (DomSink.createElement doc name attrs flags).2) := by
  simp only [DomSink.createElement]
  cases flags.template with
  | false => exact hs.create _
  | true =>
    have t := hs.tree.create (.element { name, attrs, templateContents := none })
    have t' := t.create .documentFragment
    refine hs.leaves_same (t'.modify _ ?_) ?_
    · intro n
      split <;> rfl
    · intro q c hc
      rw [if_pos rfl, text_modify_element]
      · rw [t.text_create .documentFragment q c (t.forest_kids ▸ hc)]
        exact hs.tree.text_create _ q c hc
      · intro n
        split
        · rename_i e he
          exact .inr ⟨⟨e, he⟩, _, rfl⟩
        · exact .inl rfl

/-! ## Text -/

/-- Text that joins the text node in front of its place. -/
theorem Sound.merge (hs : Sound doc) {c : NodeId} (hc : place.candidate doc = some c) {existing : StrTendril}
    (hold : doc.forest.text c = some existing) (hp : place.NotBeforeText doc.forest) (text : StrTendril) :
    Leaves (inserted doc place (.appendText text) doc.forest.flat)
      (.some (doc.modify c fun node => { node with kind := .text (existing ++ text) })) := by
  obtain ⟨p, L, R, hb⟩ := hs.tree.exists_between hc
  have hlast : L.getLast? = some c := (hs.tree.candidate_eq hb).symm.trans hc
  have t := hs.tree.modify c (f := fun node => { node with kind := .text (existing ++ text) }) (fun _ => rfl)
  have htext := text_modify hold text
  refine hs.leaves_inserted ⟨p, L, R, hb, .inl ⟨c, hlast, by rw [hold]; rfl⟩⟩ hp hb t ?_ ?_
  · refine OrderedForest.separated_grown hs.apart t.forest_kids ?_
    intro x
    rw [htext]
    split
    · rename_i hx
      rw [hx, hold]
      rfl
    · rfl
  · refine OrderedForest.grown hs.tree.forest_uniqueParents ?_ t.forest_kids hlast hold ?_ ?_
    · exact hb.kids_eq
    · rw [htext, if_pos rfl]
    · intro x hx
      rw [htext, if_neg hx]

/-- Text that goes into a new node: in front of its place is no text node. -/
theorem Sound.putNew (hs : Sound doc) (hfree : ∀ c ∈ place.candidate doc, doc.forest.text c = none)
    (hp : place.NotBeforeText doc.forest) (text : StrTendril) :
    Leaves (inserted doc place (.appendText text) doc.forest.flat)
      ((place.link (doc.create (.text text)).2 (doc.create (.text text)).1).map (·.2)) := by
  have t := hs.tree.create (.text text)
  have htext := hs.tree.text_create (.text text)
  have hkids : (doc.create (.text text)).2.forest.kids = doc.forest.kids := t.forest_kids
  have hlinked := t.linked place (doc.create (.text text)).1
  generalize place.link (doc.create (.text text)).2 (doc.create (.text text)).1 = result at hlinked
  cases hlinked with
  | refused h =>
    have hacc : ¬Accepted doc place (.appendText text) := by
      rintro ⟨p, L, R, hb, ⟨c, hc, htaken⟩ | hroom⟩
      · rw [hfree c ((hs.tree.candidate_eq hb).trans hc)] at htaken
        cases htaken
      · have hknown := hs.tree.known_of_between hb
        obtain ⟨n, hn⟩ := known_iff.1 hknown
        exact h p L R ((hs.tree.between_create _ (hs.tree.ne_create_id _ hn)).2 hb) (hs.tree.attachable_create _ hroom hknown)
    rw [inserted, if_neg hacc, Part.map_some]
    exact hs.create _
  | @done doc' p L R hb ha t' hk =>
    have hp' : p ≠ (doc.create (.text text)).1 := fun h => ha.acyclic (h ▸ Relation.ReflTransGen.refl)
    have hb' := (hs.tree.between_create _ hp').1 hb
    have hroom := hs.tree.room_of_attachable ha
    have hsame : ∀ q, ∀ x ∈ doc.forest.kids q, doc'.forest.text x = doc.forest.text x := by
      intro q x hx
      rw [OrderedForest.text_congr (congrFun hk x)]
      exact htext q x hx
    have hnew : doc'.forest.text (doc.create (.text text)).1 = some text := by
      rw [OrderedForest.text_congr (congrFun hk _)]
      exact text_create_id hroom text
    have hlists : doc'.forest.kids = setKids doc.forest.kids p (L ++ (doc.create (.text text)).1 :: R) :=
      hkids ▸ t'.forest_kids
    rw [Part.map_some]
    refine hs.leaves_inserted ⟨p, L, R, hb', .inr hroom⟩ hp hb' t' ?_ ?_
    · refine OrderedForest.separated_spliced hs.apart hb'.kids_eq hlists hsame (.inr ⟨?_, hp.head hb'⟩)
      intro a ha
      exact hfree a ((hs.tree.candidate_eq hb').trans ha)
    · have hg := OrderedForest.spliced hb'.kids_eq hlists hsame
      rwa [FlatList.items_of_text hnew] at hg

/-- Text at a place joins the text node in front of it, or goes into a new one. -/
theorem Sound.putText (hs : Sound doc) (place : Place) (hp : place.NotBeforeText doc.forest) (text : StrTendril) :
    Leaves (inserted doc place (.appendText text) doc.forest.flat)
      (DomSink.putText doc (place.candidate doc) text fun doc id => place.link doc id) := by
  by_cases hfree : ∀ c ∈ place.candidate doc, doc.forest.text c = none
  · rw [DomSink.putText, mergeIntoTrailingText_of_none hfree]
    exact hs.putNew hfree hp text
  · obtain ⟨c, hc⟩ := not_forall.1 hfree
    obtain ⟨hcand, hsome⟩ := Classical.not_imp.1 hc
    obtain ⟨existing, hold⟩ := Option.ne_none_iff_exists'.1 hsome
    rw [DomSink.putText, Option.mem_def.1 hcand, mergeIntoTrailingText_of_text hold]
    exact hs.merge hcand hold hp text

/-! ## Nodes -/

/-- A node without parent that is not a text node, put at a place. -/
theorem Sound.putNode (hs : Sound doc) (place : Place) (hp : place.NotBeforeText doc.forest) {node : NodeId}
    (htext : doc.forest.text node = none) :
    Leaves (inserted doc place (.appendNode node) doc.forest.flat) ((place.link doc node).map (·.2)) := by
  have hlinked := hs.tree.linked place node
  generalize place.link doc node = result at hlinked
  cases hlinked with
  | refused h =>
    have hacc : ¬Accepted doc place (.appendNode node) := by
      rintro ⟨p, L, R, hb, ha⟩
      exact h p L R hb ha
    rw [inserted, if_neg hacc, Part.map_some]
    exact ⟨doc, rfl, hs, rfl⟩
  | @done doc' p L R hb ha t hk =>
    have hsame : ∀ x, doc'.forest.text x = doc.forest.text x := fun x => OrderedForest.text_congr (congrFun hk x)
    have hnone : doc'.forest.text node = none := (hsame node).trans htext
    rw [Part.map_some]
    refine hs.leaves_inserted ⟨p, L, R, hb, ha⟩ hp hb t ?_ ?_
    · exact OrderedForest.separated_spliced hs.apart hb.kids_eq t.forest_kids (fun _ x _ => hsame x) (.inl hnone)
    · have hg := OrderedForest.spliced hb.kids_eq t.forest_kids (fun _ x _ => hsame x)
      rwa [FlatList.items_of_node hnone] at hg

/-- Taking a node without parent out of the tree changes nothing. -/
theorem detach_of_free (t : Tree doc kids) {node : NodeId} (h : ¬doc.forest.Attached node) : (doc.detach node).2 = doc := by
  unfold Document.detach
  cases hn : doc.get node with
  | none => rfl
  | some n =>
    refine unlink_of_orphan hn (Option.eq_none_iff_forall_ne_some.2 ?_)
    intro p hp
    exact h ⟨p, t.forest_kids ▸ (t.parent_iff hn).1 hp⟩

/-! ## Calls -/

theorem Sound.append (hs : Sound doc) (parent : NodeId) {child : NodeOrText} (hc : Loose doc child) :
    Leaves (inserted doc (.last parent) child doc.forest.flat) (DomSink.append doc parent child) := by
  cases child with
  | appendNode node => exact hs.putNode (.last parent) trivial hc.2
  | appendText text => exact hs.putText (.last parent) trivial text

theorem Sound.appendBeforeSibling (hs : Sound doc) {sibling : NodeId} (hsib : doc.forest.text sibling = none)
    {newNode : NodeOrText} (hc : Loose doc newNode) :
    Leaves (inserted doc (.before sibling) newNode doc.forest.flat) (DomSink.appendBeforeSibling doc sibling newNode) := by
  cases newNode with
  | appendNode node =>
    simp only [DomSink.appendBeforeSibling]
    rw [detach_of_free hs.tree hc.1]
    exact hs.putNode (.before sibling) hsib hc.2
  | appendText text => exact hs.putText (.before sibling) hsib text

/-- A node is in a child list exactly where the document has a parent for it. -/
theorem Sound.attached_iff (hs : Sound doc) (id : NodeId) :
    doc.forest.Attached id ↔ ((doc.get id).bind (·.parent)).isSome = true := by
  rw [Option.isSome_iff_exists]
  exact exists_congr fun p => (hs.tree.bind_parent id p).symm

/-- Every call that may be made returns, keeps texts apart, and does to the flat lists what it asks for. -/
theorem Sound.perform (hs : Sound doc) {call : Call} (hc : Allowed doc call) :
    Leaves (requestedBy doc doc.forest.flat call) (DomSink.perform doc call) := by
  cases call with
  | createElement name attrs flags => exact hs.createElement name attrs flags
  | createComment text => exact hs.create _
  | createPi target data => exact hs.create _
  | append parent child => exact hs.append parent hc
  | appendBeforeSibling sibling newNode => exact hs.appendBeforeSibling hc.1 hc.2
  | appendBasedOnParentNode element prevElement child =>
    rw [DomSink.perform, DomSink.appendBasedOnParentNode, requestedBy]
    by_cases hatt : doc.forest.Attached element
    · rw [if_pos hatt, if_pos ((hs.attached_iff element).1 hatt)]
      exact hs.appendBeforeSibling hc.1 hc.2
    · rw [if_neg hatt, if_neg fun h => hatt ((hs.attached_iff element).2 h)]
      exact hs.append prevElement hc.2

/-- So does every run of such calls. -/
theorem Sound.exec (hs : Sound doc) {calls : List Call} (hc : Permitted calls doc) :
    ∃ doc', DomSink.exec calls doc = .some doc' ∧ Sound doc' ∧
      requested calls doc doc.forest.flat = .some doc'.forest.flat := by
  induction calls generalizing doc with
  | nil => exact ⟨doc, rfl, hs, rfl⟩
  | cons call calls ih =>
    obtain ⟨hallowed, hrest⟩ := hc
    obtain ⟨doc', hdoc', hs', hflat⟩ := hs.perform hallowed
    obtain ⟨doc'', hdoc'', hs'', hreq⟩ := ih hs' (hrest doc' hdoc')
    refine ⟨doc'', ?_, hs'', ?_⟩
    · rw [DomSink.exec, hdoc', Part.bind_eq_bind, Part.bind_some, hdoc'']
    · rw [requested, hdoc', Part.bind_eq_bind, Part.bind_some, ← hflat, hreq]

theorem sound_new (baseUrl : String) : Sound (Document.new baseUrl) := by
  have t := tree_new baseUrl
  refine ⟨t.forest_kids ▸ t, ?_⟩
  intro p
  rw [t.forest_kids]
  exact List.isChain_nil

/-- After any sequence of calls that may be made, no node has two adjacent text children, and the children of each node with
texts replaced by their contents are what the calls ask for. -/
theorem exec_requested (baseUrl : String) (calls : List Call) (h : Permitted calls (Document.new baseUrl)) :
    ∃ doc, exec calls (Document.new baseUrl) = .some doc ∧ doc.forest.Separated ∧
      requested calls (Document.new baseUrl) (fun _ => []) = .some doc.forest.flat := by
  have hs := sound_new baseUrl
  obtain ⟨doc, hdoc, hs', hreq⟩ := hs.exec h
  refine ⟨doc, hdoc, hs'.apart, ?_⟩
  have hflat : (Document.new baseUrl).forest.flat = fun _ => [] := by
    funext p
    rw [OrderedForest.flat, (tree_new baseUrl).forest_kids, FlatList.flat_nil]
  rwa [hflat] at hreq

/-- A template in the document, text that is put in front of it, and two texts for its contents. -/
def fostered : List Call :=
  [.createElement ⟨none, "html", "template"⟩ [] ⟨true⟩, .append (.fromIndex 0) (.appendNode (.fromIndex 1)),
    .appendBasedOnParentNode (.fromIndex 1) (.fromIndex 0) (.appendText ['a']), .append (.fromIndex 2) (.appendText ['b']),
    .append (.fromIndex 2) (.appendText ['c'])]

theorem permitted_fostered : Permitted fostered (Document.new "") := by
  refine ⟨trivial, ?_⟩
  intro doc h
  obtain rfl := Part.some_inj.1 h
  have t : Tree (DomSink.createElement (Document.new "") ⟨none, "html", "template"⟩ [] ⟨true⟩).2 (fun _ => []) :=
    (((tree_new "").create _).create _).modify _ (fun n => by split <;> rfl)
  refine ⟨⟨?_, rfl⟩, ?_⟩
  · rintro ⟨p, hp⟩
    rw [t.forest_kids] at hp
    cases hp
  · intro doc h
    have hcheck : checkAttach (DomSink.createElement (Document.new "") ⟨none, "html", "template"⟩ [] ⟨true⟩).2
        (.fromIndex 0) (.fromIndex 1) = .some (.ok ()) :=
      checkAttach_of_leaf rfl rfl (by decide) (by decide) rfl rfl
    simp only [perform, DomSink.append, appendChild, hcheck, Part.bind_eq_bind, Part.bind_some, Part.map_some] at h
    obtain rfl := Part.some_inj.1 h
    exact ⟨⟨rfl, trivial⟩, fun _ _ => ⟨trivial, fun _ _ => ⟨trivial, fun _ _ => trivial⟩⟩⟩

theorem exec_requested_fostered : ∃ doc, exec fostered (Document.new "") = .some doc ∧ doc.forest.Separated ∧
    requested fostered (Document.new "") (fun _ => []) = .some doc.forest.flat :=
  exec_requested "" fostered permitted_fostered

end DomSink

end ChromeLight
