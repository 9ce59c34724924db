import ChromeLight.Lemmas.Sink
import ChromeLight.Lib.Machine
import ChromeLight.Theorems.Dom
import ChromeLight.Theorems.Serialize
import ChromeLight.TreeSink

/-!
# What a parse leaves

Whatever the tree builder asks of the sink and in whatever order, each call is a few changes of the document, each of which keeps
it a tree and only lets its nodes grow (`Change`). So every parse returns a consistent document and no more than the first parse
errors (`parse_consistent`), and what a call has built stays (`run_keeps`). Where no fragment is put into the tree, the contents
of templates stay apart (`parse_templates`).
-/

namespace ChromeLight

open LinkedForest (setKids)
open Document

/-! ## Growth -/

/-- What may become of a node: a text takes more characters, an element takes attributes of other names. -/
def Grows : NodeKind → NodeKind → Prop
  | .text t, k => ∃ more, k = .text (t ++ more)
  | .element e, k => ∃ added, k = .element { e with attrs := e.attrs ++ added } ∧
      (∀ a ∈ added, ∀ b ∈ e.attrs, a.name ≠ b.name) ∧ (added.map Attr.name).Nodup
  | k, k' => k' = k

/-- Every kind grows into itself. -/
theorem Grows.refl (k : NodeKind) : Grows k k := by
  cases k with
  | text t => exact ⟨[], by rw [List.append_nil]⟩
  | element e => exact ⟨[], by rw [List.append_nil], nofun, List.nodup_nil⟩
  | _ => rfl

/-- Growing twice is growing. -/
theorem Grows.trans {k k' k'' : NodeKind} (h : Grows k k') (h' : Grows k' k'') : Grows k k'' := by
  cases k with
  | text t =>
    obtain ⟨more, rfl⟩ := h
    obtain ⟨more', rfl⟩ := h'
    exact ⟨more ++ more', by rw [List.append_assoc]⟩
  | element e =>
    obtain ⟨added, rfl, hnew, hnodup⟩ := h
    obtain ⟨added', rfl, hnew', hnodup'⟩ := h'
    refine ⟨added ++ added', by rw [List.append_assoc], ?_, ?_⟩
    · intro a ha b hb
      rcases List.mem_append.1 ha with ha | ha
      · exact hnew a ha b hb
      · exact hnew' a ha b (List.mem_append_left _ hb)
    · rw [List.map_append]
      refine List.Nodup.append hnodup hnodup' ?_
      intro name hadded hadded'
      obtain ⟨b, hb, rfl⟩ := List.mem_map.1 hadded
      obtain ⟨a, ha, hname⟩ := List.mem_map.1 hadded'
      exact hnew' a ha b (List.mem_append_right _ hb) hname
  | document | doctype | comment | processingInstruction | documentFragment =>
    obtain rfl : k' = _ := h
    exact h'

/-- Attributes that are added one by one, unless there is one of that name. -/
theorem foldl_pushIfMissing (attrs : List Attr) (e : Element) :
    Grows (.element e) (.element { e with attrs := attrs.foldl DomSink.pushIfMissing e.attrs }) := by
  induction attrs generalizing e with
  | nil => exact .refl _
  | cons attr attrs ih =>
    have hpush : Grows (.element e) (.element { e with attrs := DomSink.pushIfMissing e.attrs attr }) := by
      unfold DomSink.pushIfMissing
      split
      · exact .refl _
      · rename_i hmissing
        refine ⟨[attr], rfl, ?_, List.nodup_singleton _⟩
        rintro _ ha b hb hname
        obtain rfl := List.mem_singleton.1 ha
        exact hmissing (List.any_eq_true.2 ⟨b, hb, decide_eq_true hname.symm⟩)
    exact hpush.trans (ih { e with attrs := DomSink.pushIfMissing e.attrs attr })

/-! ## Changes -/

/-- What the tree builder keeps to: the kinds of the nodes that are made, and of those that are put into the tree. The sink makes
texts and doctypes itself. -/
structure Rules where
  made : NodeKind → Prop
  linked : NodeKind → Prop
  text : ∀ text, made (.text text) ∧ linked (.text text)
  doctype : ∀ doctype, made (.doctype doctype) ∧ linked (.doctype doctype)
  comment : ∀ text, made (.comment text)
  processingInstruction : ∀ target data, made (.processingInstruction target data)

/-- No rules. -/
def Rules.any : Rules where
  made _ := True
  linked _ := True
  text _ := ⟨trivial, trivial⟩
  doctype _ := ⟨trivial, trivial⟩
  comment _ := trivial
  processingInstruction _ _ := trivial

/-- What a call does to the document, one at a time. -/
inductive Change (rules : Rules) : Document → Document → Prop where
  | create {doc : Document} (kind : NodeKind) (h : ∀ e, kind = .element e → e.templateContents = none)
      (hmade : rules.made kind) : Change rules doc (doc.create kind).2
  | template {doc : Document} (name : QualName) (attrs : List Attr)
      (hmade : rules.made (.element { name, attrs, templateContents := none })) :
      Change rules doc (DomSink.createElement doc name attrs ⟨true⟩).2
  | grow {doc : Document} (id : NodeId) (f : Node → Node) (hlinks : ∀ n, (f n).links = n.links)
      (h : ∀ n, doc.get id = some n → Grows n.kind (f n).kind) : Change rules doc (doc.modify id f)
  | link {doc doc' : Document} {r : Except DomError Unit} (place : Place) (id : NodeId)
      (h : place.link doc id = .some (r, doc')) (hlinked : ∀ kind ∈ doc.forest.kind id, rules.linked kind) :
      Change rules doc doc'
  | detach {doc doc' : Document} {r : Except DomError Unit} (id : NodeId) (h : doc.detach id = (r, doc')) :
      Change rules doc doc'
  | reparent {doc doc' : Document} {r : Except DomError Unit} (source target : NodeId)
      (h : doc.reparentChildren source target = .some (r, doc')) : Change rules doc doc'
  | quirks {doc : Document} (mode : QuirksMode) : Change rules doc (doc.setQuirksMode mode)

variable {doc doc' : Document} {kids : NodeId → List NodeId} {rules : Rules}

/-- The result of a call that returns. -/
theorem some_eq_of_outcome {refusal : Option DomError} {F : OrderedForest} {result : Part (Except DomError Unit × Document)}
    {r : Except DomError Unit} (h : Outcome doc refusal F result) (hr : result = .some (r, doc')) :
    doc' = doc ∨ Tree doc' F.kids ∧ doc'.forest.kind = F.kind := by
  cases h with
  | refused => exact .inl (Prod.mk.inj (Part.some_injective hr)).2.symm
  | done h t hk =>
    obtain rfl := (Prod.mk.inj (Part.some_injective hr)).2
    exact .inr ⟨t, hk⟩

/-- A link either leaves the document as it is, or puts the node between two siblings. -/
theorem some_eq_of_linked {place : Place} {id : NodeId} {r : Except DomError Unit} (t : Tree doc kids)
    (hr : place.link doc id = .some (r, doc')) : doc' = doc ∨ ∃ p L R, place.Between doc.forest p L R ∧
      doc.forest.Attachable doc.root p id ∧ Tree doc' (setKids doc.forest.kids p (L ++ id :: R)) ∧
      doc'.forest.kind = doc.forest.kind := by
  have h := t.linked place id
  generalize place.link doc id = result at hr h
  cases h with
  | refused => exact .inl (Prod.mk.inj (Part.some_injective hr)).2.symm
  | @done d p L R hb ha t hk =>
    obtain rfl := (Prod.mk.inj (Part.some_injective hr)).2
    exact .inr ⟨p, L, R, hb, ha, t, hk⟩

/-- An element with template contents, made in a tree, leaves a tree. -/
theorem tree_template (t : Tree doc kids) (name : QualName) (attrs : List Attr) :
    Tree (DomSink.createElement doc name attrs ⟨true⟩).2 kids := by
  refine ((t.create _).create _).modify _ ?_
  intro n
  split <;> rfl

/-- A change of a tree leaves a tree. -/
theorem Change.tree (t : Tree doc kids) (h : Change rules doc doc') : ∃ kids', Tree doc' kids' := by
  cases h with
  | create kind => exact ⟨kids, t.create kind⟩
  | template name attrs => exact ⟨kids, tree_template t name attrs⟩
  | grow id f hlinks => exact ⟨kids, t.modify id hlinks⟩
  | link place id h =>
    rcases some_eq_of_linked t h with rfl | ⟨p, L, R, -, -, t', -⟩
    · exact ⟨kids, t⟩
    · exact ⟨_, t'⟩
  | detach id h =>
    rcases some_eq_of_outcome (t.detach id) (congrArg Part.some h) with rfl | ⟨t', -⟩
    · exact ⟨kids, t⟩
    · exact ⟨_, t'⟩
  | reparent source target h =>
    rcases some_eq_of_outcome (t.reparentChildren source target) h with rfl | ⟨t', -⟩
    · exact ⟨kids, t⟩
    · exact ⟨_, t'⟩
  | quirks mode => exact ⟨kids, t.represents, t.wf, t.root, t.nonempty, t.capped⟩

/-- The forest knows the kind of a node that is there. -/
theorem kind_of_get {id : NodeId} {n : Node} (h : doc.get id = some n) : doc.forest.kind id = some n.kind := by
  simp only [forest, h, Option.map_some]

/-- Changes of a tree leave a tree. -/
theorem exists_tree_of_changes (t : Tree doc kids) (h : Relation.ReflTransGen (Change rules) doc doc') :
    ∃ kids', Tree doc' kids' := by
  induction h with
  | refl => exact ⟨kids, t⟩
  | tail _ hchange ih =>
    obtain ⟨kids', t'⟩ := ih
    exact hchange.tree t'

/-- Every node is still there, and has at most grown. -/
def Keeps (doc doc' : Document) : Prop :=
  ∀ id kind, doc.forest.kind id = some kind → ∃ kind', doc'.forest.kind id = some kind' ∧ Grows kind kind'

/-- Where no kind changes, every node is kept. -/
theorem Keeps.of_kind_eq (h : ∀ id, doc.forest.Known id → doc'.forest.kind id = doc.forest.kind id) : Keeps doc doc' := by
  intro id kind hk
  exact ⟨kind, (h id (by rw [OrderedForest.Known, hk]; rfl)).trans hk, .refl _⟩

/-- What two changes keep each, they keep together. -/
theorem Keeps.trans {doc'' : Document} (h : Keeps doc doc') (h' : Keeps doc' doc'') : Keeps doc doc'' := by
  intro id kind hk
  obtain ⟨kind', hk', hgrows⟩ := h id kind hk
  obtain ⟨kind'', hk'', hgrows'⟩ := h' id kind' hk'
  exact ⟨kind'', hk'', hgrows.trans hgrows'⟩

/-- A new node leaves the others as they are. -/
theorem keeps_create (t : Tree doc kids) (kind : NodeKind) : Keeps doc (doc.create kind).2 := by
  refine .of_kind_eq ?_
  intro id hknown
  obtain ⟨n, hn⟩ := known_iff.1 hknown
  exact kind_eq (get_create_ne kind (t.ne_create_id kind hn))

/-- A node that grows keeps the others as they are. -/
theorem keeps_modify {id : NodeId} {f : Node → Node} (h : ∀ n, doc.get id = some n → Grows n.kind (f n).kind) :
    Keeps doc (doc.modify id f) := by
  intro x kind hk
  obtain ⟨n, hn, rfl⟩ := Option.map_eq_some_iff.1 hk
  by_cases hx : x = id
  · subst hx
    exact ⟨(f n).kind, by simp [forest, get_modify, hn], h n hn⟩
  · exact ⟨n.kind, by simp [forest, get_modify, if_neg hx, hn], .refl _⟩

/-- An element with template contents leaves the others as they are. -/
theorem keeps_template (t : Tree doc kids) (name : QualName) (attrs : List Attr) :
    Keeps doc (DomSink.createElement doc name attrs ⟨true⟩).2 := by
  refine .of_kind_eq ?_
  intro id hknown
  obtain ⟨n, hn⟩ := known_iff.1 hknown
  have hne := t.ne_create_id (.element { name, attrs, templateContents := none }) hn
  have hn' := (get_create_ne _ hne).trans hn
  have hne' := (t.create _).ne_create_id .documentFragment hn'
  refine kind_eq ?_
  simp only [DomSink.createElement, if_true]
  rw [get_modify, if_neg hne, get_create_ne _ hne', hn', hn]

/-- Moving children changes no kind. -/
theorem kind_reparent (F : OrderedForest) (source target : NodeId) : (F.reparent source target).kind = F.kind := by
  unfold OrderedForest.reparent
  split <;> rfl

/-- What is attached after the move was before. -/
theorem attached_of_reparent {F : OrderedForest} {source target c q : NodeId} (hc : c ∈ (F.reparent source target).kids q) :
    F.Attached c := by
  unfold OrderedForest.reparent at hc
  split at hc
  · exact ⟨q, hc⟩
  · dsimp only at hc
    by_cases htarget : q = target
    · rw [htarget, LinkedForest.setKids_self] at hc
      rcases List.mem_append.1 hc with hc | hc
      · exact ⟨target, hc⟩
      · exact ⟨source, hc⟩
    · rw [LinkedForest.setKids_ne _ _ htarget] at hc
      by_cases hsource : q = source
      · rw [hsource, LinkedForest.setKids_self] at hc
        cases hc
      · rw [LinkedForest.setKids_ne _ _ hsource] at hc
        exact ⟨q, hc⟩

/-- A change keeps every node. -/
theorem Change.keeps (t : Tree doc kids) (h : Change rules doc doc') : Keeps doc doc' := by
  cases h with
  | create kind => exact keeps_create t kind
  | template name attrs => exact keeps_template t name attrs
  | grow id f _ h => exact keeps_modify h
  | link place id h =>
    rcases some_eq_of_linked t h with rfl | ⟨p, L, R, -, -, -, hk⟩
    · exact .of_kind_eq (fun _ _ => rfl)
    · exact .of_kind_eq (fun id _ => congrFun hk id)
  | detach id h =>
    rcases some_eq_of_outcome (t.detach id) (congrArg Part.some h) with rfl | ⟨-, hk⟩
    · exact .of_kind_eq (fun _ _ => rfl)
    · rw [OrderedForest.kind_remove] at hk
      exact .of_kind_eq (fun id _ => congrFun hk id)
  | reparent source target h =>
    rcases some_eq_of_outcome (t.reparentChildren source target) h with rfl | ⟨-, hk⟩
    · exact .of_kind_eq (fun _ _ => rfl)
    · rw [kind_reparent] at hk
      exact .of_kind_eq (fun id _ => congrFun hk id)
  | quirks mode => exact .of_kind_eq (fun _ _ => rfl)

/-! ## A call is a few changes -/

namespace DomSink

/-- The node a call puts into the tree. -/
def puts : TreeCall → Option NodeId
  | .build (.append _ (.appendNode node)) => some node
  | .build (.appendBeforeSibling _ (.appendNode node)) => some node
  | .build (.appendBasedOnParentNode _ _ (.appendNode node)) => some node
  | _ => none

/-- The node a call makes. -/
def makes : TreeCall → Option NodeKind
  | .build (.createElement name attrs _) => some (.element { name, attrs, templateContents := none })
  | _ => none

/-- Text is handed back, or appended to a text node. -/
theorem mergeIntoTrailingText_cases (doc : Document) (candidate : Option NodeId) (text : StrTendril) :
    mergeIntoTrailingText doc candidate text = .error text ∨ ∃ id existing, doc.forest.kind id = some (.text existing) ∧
      mergeIntoTrailingText doc candidate text
        = .ok (doc.modify id fun node => { node with kind := .text (existing ++ text) }) := by
  cases candidate with
  | none => exact .inl rfl
  | some id =>
    simp only [mergeIntoTrailingText]
    cases hk : (doc.get id).map Node.kind with
    | none => exact .inl rfl
    | some kind =>
      cases kind with
      | text existing => exact .inr ⟨id, existing, hk, rfl⟩
      | _ => exact .inl rfl

/-- A link in a tree returns. -/
theorem exists_link (t : Tree doc kids) (place : Place) (id : NodeId) : ∃ r doc', place.link doc id = .some (r, doc') := by
  have h := t.linked place id
  generalize place.link doc id = result at h
  cases h with
  | refused => exact ⟨_, _, rfl⟩
  | done => exact ⟨_, _, rfl⟩

/-- A new node is linked in, if there is room for it. -/
theorem changes_create_link (t : Tree doc kids) (place : Place) {kind : NodeKind}
    (hkind : rules.made kind ∧ rules.linked kind) (hcontents : ∀ e, kind = .element e → e.templateContents = none) :
    ∃ doc', (place.link (doc.create kind).2 (doc.create kind).1).map (·.2) = .some doc' ∧
      Relation.ReflTransGen (Change rules) doc doc' := by
  obtain ⟨r, doc', hlink⟩ := exists_link (t.create kind) place (doc.create kind).1
  refine ⟨doc', by rw [hlink, Part.map_some], .tail (.single (.create kind hcontents hkind.1)) (.link place _ hlink ?_)⟩
  intro kind' hkind'
  obtain ⟨n, hn, rfl⟩ := Option.map_eq_some_iff.1 hkind'
  by_cases hroom : doc.len < u32Max
  · rw [get_create hroom, if_pos rfl] at hn
    obtain rfl := Option.some.inj hn
    exact hkind.2
  · rw [create_full hroom, get_create_id t.capped] at hn
    cases hn

/-- Putting text into a tree returns, and is a few changes of it. -/
theorem changes_putText (t : Tree doc kids) (place : Place) (text : StrTendril) :
    ∃ doc', putText doc (place.candidate doc) text (fun doc id => place.link doc id) = .some doc' ∧
      Relation.ReflTransGen (Change rules) doc doc' := by
  unfold putText
  rcases mergeIntoTrailingText_cases doc (place.candidate doc) text with hmerge | ⟨id, existing, hkind, hmerge⟩
  · rw [hmerge]
    exact changes_create_link t place (rules.text text) nofun
  · rw [hmerge]
    refine ⟨_, rfl, .single (.grow id _ (fun _ => rfl) ?_)⟩
    intro n hn
    rw [Option.some.inj ((kind_of_get hn).symm.trans hkind)]
    exact ⟨text, rfl⟩

/-- Putting a node into a tree returns, and is a few changes of it. -/
theorem changes_putNode (t : Tree doc kids) (place : Place) {node : NodeId} (hlinked : ∀ kind ∈ doc.forest.kind node, rules.linked kind) :
    ∃ doc', (place.link doc node).map (·.2) = .some doc' ∧ Relation.ReflTransGen (Change rules) doc doc' := by
  obtain ⟨r, doc', hlink⟩ := exists_link t place node
  exact ⟨doc', by rw [hlink, Part.map_some], .single (.link place node hlink hlinked)⟩

/-- `append` returns, and is a few changes. -/
theorem changes_append (t : Tree doc kids) (parent : NodeId) (child : NodeOrText)
    (hlinked : ∀ node ∈ puts (.build (.append parent child)), ∀ kind ∈ doc.forest.kind node, rules.linked kind) :
    ∃ doc', DomSink.append doc parent child = .some doc' ∧ Relation.ReflTransGen (Change rules) doc doc' := by
  cases child with
  | appendNode node => exact changes_putNode t (.last parent) (hlinked node rfl)
  | appendText text => exact changes_putText t (.last parent) text

/-- `append_before_sibling` returns, and is a few changes. -/
theorem changes_appendBeforeSibling (t : Tree doc kids) (sibling : NodeId) (newNode : NodeOrText)
    (hlinked : ∀ node ∈ puts (.build (.appendBeforeSibling sibling newNode)), ∀ kind ∈ doc.forest.kind node, rules.linked kind) :
    ∃ doc', DomSink.appendBeforeSibling doc sibling newNode = .some doc' ∧ Relation.ReflTransGen (Change rules) doc doc' := by
  cases newNode with
  | appendNode node =>
    simp only [DomSink.appendBeforeSibling]
    cases hdetach : doc.detach node with
    | mk r doc₁ =>
      have hchange : Change rules doc doc₁ := .detach node hdetach
      obtain ⟨kids₁, t₁⟩ := hchange.tree t
      have hkind : ∀ id, doc₁.forest.kind id = doc.forest.kind id := by
        intro id
        rcases some_eq_of_outcome (t.detach node) (congrArg Part.some hdetach) with rfl | ⟨-, hk⟩
        · rfl
        · rw [hk, OrderedForest.kind_remove]
      have hnode : ∀ kind ∈ doc₁.forest.kind node, rules.linked kind := by
        intro kind hmem
        exact hlinked node rfl kind (hkind node ▸ hmem)
      obtain ⟨doc', hdoc', hchanges⟩ := changes_putNode t₁ (.before sibling) hnode
      exact ⟨doc', hdoc', .head hchange hchanges⟩
  | appendText text => exact changes_putText t (.before sibling) text

/-- Every call returns, after changes that keep the invariant. -/
theorem changes_of_call (t : Tree doc kids) (treeCall : TreeCall) (hmade : ∀ kind ∈ makes treeCall, rules.made kind)
    (hlinked : ∀ node ∈ puts treeCall, ∀ kind ∈ doc.forest.kind node, rules.linked kind) :
    ∃ doc', change doc treeCall = .some doc' ∧ Relation.ReflTransGen (Change rules) doc doc' := by
  cases treeCall with
  | parseError msg => exact ⟨doc, rfl, .refl⟩
  | build call =>
    cases call with
    | createElement name attrs flags =>
      obtain ⟨template⟩ := flags
      refine ⟨_, rfl, .single ?_⟩
      cases template with
      | true => exact .template name attrs (hmade _ rfl)
      | false =>
        refine .create _ ?_ (hmade _ rfl)
        rintro _ ⟨⟩
        rfl
    | createComment text => exact ⟨_, rfl, .single (.create _ nofun (rules.comment text))⟩
    | createPi target data => exact ⟨_, rfl, .single (.create _ nofun (rules.processingInstruction target data))⟩
    | append parent child => exact changes_append t parent child hlinked
    | appendBeforeSibling sibling newNode => exact changes_appendBeforeSibling t sibling newNode hlinked
    | appendBasedOnParentNode element prevElement child =>
      simp only [change, perform, DomSink.appendBasedOnParentNode]
      split
      · refine changes_appendBeforeSibling t element child ?_
        cases child <;> exact hlinked
      · refine changes_append t prevElement child ?_
        cases child <;> exact hlinked
  | appendDoctypeToDocument name publicId systemId => exact changes_create_link t (.last doc.root) (rules.doctype _) nofun
  | setQuirksMode mode => exact ⟨_, rfl, .single (.quirks _)⟩
  | addAttrsIfMissing target attrs =>
    refine ⟨_, rfl, .single (.grow target _ ?_ ?_)⟩
    · intro n
      split <;> rfl
    · intro n hn
      split
      · rename_i e he
        rw [he]
        exact foldl_pushIfMissing attrs e
      · exact .refl _
  | removeFromParent target => exact ⟨_, rfl, .single (.detach target rfl)⟩
  | reparentChildren node newParent =>
    obtain ⟨r, doc', kids', h, -⟩ := (t.reparentChildren node newParent).tree t
    exact ⟨doc', by rw [change, DomSink.reparentChildren, h, Part.map_some], .single (.reparent node newParent h)⟩

end DomSink

/-! ## Runs -/

namespace DomSink

/-- Each call keeps to the rules when it is made. -/
def Obeys (rules : Rules) : List TreeCall → Document → Prop
  | [], _ => True
  | treeCall :: calls, doc => (∀ kind ∈ makes treeCall, rules.made kind) ∧
      (∀ node ∈ puts treeCall, ∀ kind ∈ doc.forest.kind node, rules.linked kind) ∧
      ∀ doc' ∈ change doc treeCall, Obeys rules calls doc'

/-- Any calls obey no rules. -/
theorem obeys_any (calls : List TreeCall) (doc : Document) : Obeys .any calls doc := by
  induction calls generalizing doc with
  | nil => trivial
  | cons treeCall calls ih => exact ⟨fun _ _ => trivial, fun _ _ _ _ => trivial, fun doc' _ => ih doc'⟩

/-- A call is a change of the document beside what is kept of the errors. -/
theorem call_eq (sink : DomSink) (treeCall : TreeCall) : ∃ errors errorsSuppressed, ∀ doc, change sink.doc treeCall = .some doc →
    sink.call treeCall = .some { doc, errors, errorsSuppressed } := by
  cases treeCall with
  | parseError msg =>
    refine ⟨(sink.parseError msg).errors, (sink.parseError msg).errorsSuppressed, ?_⟩
    intro doc hdoc
    obtain rfl := Part.some_injective hdoc
    rw [call]
    unfold parseError
    split <;> rfl
  | _ =>
    refine ⟨sink.errors, sink.errorsSuppressed, ?_⟩
    intro doc hdoc
    simp only [call, hdoc, Part.map_some]

/-- Every run returns, after changes that keep the invariant. -/
theorem changes_of_run (rules : Rules) {sink : DomSink} (t : Tree sink.doc kids) {calls : List TreeCall}
    (hobeys : Obeys rules calls sink.doc) :
    ∃ sink', run calls sink = .some sink' ∧ Relation.ReflTransGen (Change rules) sink.doc sink'.doc := by
  induction calls generalizing sink kids with
  | nil => exact ⟨sink, rfl, .refl⟩
  | cons treeCall calls ih =>
    obtain ⟨hmade, hlinked, hrest⟩ := hobeys
    obtain ⟨doc', hdoc', hchanges⟩ := changes_of_call t treeCall hmade hlinked
    obtain ⟨errors, errorsSuppressed, hcall⟩ := call_eq sink treeCall
    obtain ⟨kids', t'⟩ := exists_tree_of_changes t hchanges
    have t'' : Tree (DomSink.mk doc' errors errorsSuppressed).doc kids' := t'
    obtain ⟨sink', hrun, hchanges'⟩ := ih t'' (hrest doc' (Part.eq_some_iff.1 hdoc'))
    refine ⟨sink', ?_, hchanges.trans hchanges'⟩
    rw [run, hcall doc' hdoc', Part.bind_eq_bind, Part.bind_some, hrun]

/-! ## Parse errors -/

/-- The first errors are kept, and the others counted. -/
structure Reports (msgs : List String) (sink : DomSink) : Prop where
  errors : sink.errors = msgs.take maxParseErrors
  errorsSuppressed : sink.errorsSuppressed = min (msgs.length - maxParseErrors) usizeMax

/-- One more message is reported, or counted. -/
theorem Reports.parseError {msgs : List String} {sink : DomSink} (h : Reports msgs sink) (msg : String) :
    Reports (msgs ++ [msg]) (sink.parseError msg) := by
  have hlen : sink.errors.length = min maxParseErrors msgs.length := by rw [h.errors, List.length_take]
  have hsup := h.errorsSuppressed
  unfold DomSink.parseError
  split
  · rename_i hroom
    have hle : msgs.length < maxParseErrors := by omega
    constructor
    · dsimp only
      rw [h.errors, List.take_of_length_le hle.le, List.take_of_length_le]
      rw [List.length_append, List.length_singleton]
      exact hle
    · rw [hsup, List.length_append, List.length_singleton]
      omega
  · rename_i hfull
    have hle : maxParseErrors ≤ msgs.length := by omega
    constructor
    · rw [List.take_append_of_le_length hle]
      exact h.errors
    · dsimp only
      rw [hsup, List.length_append, List.length_singleton]
      omega

/-- What a run reports is what its calls said. -/
theorem Reports.run {msgs : List String} {sink sink' : DomSink} {calls : List TreeCall} (h : Reports msgs sink)
    (hrun : DomSink.run calls sink = .some sink') : Reports (msgs ++ messages calls) sink' := by
  induction calls generalizing msgs sink with
  | nil =>
    obtain rfl := Part.some_injective hrun
    simpa [messages] using h
  | cons treeCall calls ih =>
    rw [DomSink.run, Part.bind_eq_bind] at hrun
    obtain ⟨sink₁, hcall, hrest⟩ := Part.mem_bind_iff.1 (Part.eq_some_iff.1 hrun)
    have hrest := Part.eq_some_iff.2 hrest
    cases treeCall with
    | parseError msg =>
      obtain rfl := Part.mem_some_iff.1 hcall
      have := ih (h.parseError msg) hrest
      rwa [List.append_assoc] at this
    | _ =>
      obtain ⟨doc', -, rfl⟩ := (Part.mem_map_iff _).1 hcall
      have h' : Reports msgs { sink with doc := doc' } := ⟨h.errors, h.errorsSuppressed⟩
      exact ih h' hrest

end DomSink

/-! ## What html5ever builds -/

/-- html5ever gives no element two attributes of one name, and puts no fragment into the tree. -/
def Rules.parser : Rules where
  made kind := ∀ e, kind = .element e → (e.attrs.map Attr.name).Nodup
  linked kind := kind ≠ .documentFragment
  text _ := ⟨nofun, nofun⟩
  doctype _ := ⟨nofun, nofun⟩
  comment _ := nofun
  processingInstruction _ _ := nofun

/-- No fragment hangs anywhere, each contents fragment belongs to one template, and the attributes of an element differ. -/
structure Apart (doc : Document) : Prop where
  root : doc.forest.kind doc.root = some .document
  free : ∀ p, ∀ c ∈ doc.forest.kids p, doc.forest.kind c ≠ some .documentFragment
  fragment : ∀ id e contents, doc.forest.kind id = some (.element e) → e.templateContents = some contents →
    doc.forest.kind contents = some .documentFragment
  alone : ∀ id id' e e' contents, doc.forest.kind id = some (.element e) → doc.forest.kind id' = some (.element e') →
    e.templateContents = some contents → e'.templateContents = some contents → id = id'
  distinct : ∀ id e, doc.forest.kind id = some (.element e) → (e.attrs.map Attr.name).Nodup

/-- Only a fragment grows into a fragment. -/
theorem Grows.eq_of_fragment {k : NodeKind} (h : Grows k .documentFragment) : k = .documentFragment := by
  cases k with
  | text t =>
    obtain ⟨more, hmore⟩ := h
    cases hmore
  | element e =>
    obtain ⟨added, hadded, -⟩ := h
    cases hadded
  | _ => exact Eq.symm h

/-- A fragment stays one. -/
theorem Keeps.fragment (h : Keeps doc doc') {id : NodeId} (hk : doc.forest.kind id = some .documentFragment) :
    doc'.forest.kind id = some .documentFragment := by
  obtain ⟨kind, hkind, hgrows⟩ := h id _ hk
  obtain rfl : kind = .documentFragment := hgrows
  exact hkind

/-- The root stays a document. -/
theorem Apart.root_of_keeps (ha : Apart doc) (h : Keeps doc doc') : doc'.forest.kind doc'.root = some .document := by
  obtain ⟨kind, hkind, hgrows⟩ := h _ _ ha.root
  obtain rfl : kind = .document := hgrows
  exact hkind

/-- Where only what was no fragment is attached, no fragment is a child. -/
theorem Keeps.free (h : Keeps doc doc')
    (hattached : ∀ p, ∀ c ∈ doc'.forest.kids p, ∃ kind, doc.forest.kind c = some kind ∧ kind ≠ .documentFragment) :
    ∀ p, ∀ c ∈ doc'.forest.kids p, doc'.forest.kind c ≠ some .documentFragment := by
  intro p c hc hfragment
  obtain ⟨kind, hkind, hne⟩ := hattached p c hc
  obtain ⟨kind', hkind', hgrows⟩ := h c kind hkind
  obtain rfl := Option.some.inj (hkind'.symm.trans hfragment)
  exact hne hgrows.eq_of_fragment

/-- A change that makes no template: every element was one before, and what is attached is no fragment. -/
theorem Apart.of_keeps (ha : Apart doc) (hkeeps : Keeps doc doc')
    (hattached : ∀ p, ∀ c ∈ doc'.forest.kids p, ∃ kind, doc.forest.kind c = some kind ∧ kind ≠ .documentFragment)
    (helement : ∀ id e', doc'.forest.kind id = some (.element e') →
      (e'.templateContents = none ∧ (e'.attrs.map Attr.name).Nodup) ∨
        ∃ e, doc.forest.kind id = some (.element e) ∧ Grows (.element e) (.element e')) : Apart doc' := by
  have old : ∀ {id e' contents}, doc'.forest.kind id = some (.element e') → e'.templateContents = some contents →
      ∃ e, doc.forest.kind id = some (.element e) ∧ e.templateContents = some contents := by
    intro id e' contents hid hcontents
    rcases helement id e' hid with ⟨hnone, -⟩ | ⟨e, he, hgrows⟩
    · rw [hnone] at hcontents
      cases hcontents
    · obtain ⟨added, hadded, -⟩ := hgrows
      obtain rfl := NodeKind.element.inj hadded
      exact ⟨e, he, hcontents⟩
  constructor
  · exact ha.root_of_keeps hkeeps
  · exact hkeeps.free hattached
  · intro id e' contents hid hcontents
    obtain ⟨e, he, hcontents'⟩ := old hid hcontents
    exact hkeeps.fragment (ha.fragment id e contents he hcontents')
  · intro id id' e e' contents hid hid' hcontents hcontents'
    obtain ⟨e₁, he₁, hc₁⟩ := old hid hcontents
    obtain ⟨e₂, he₂, hc₂⟩ := old hid' hcontents'
    exact ha.alone id id' e₁ e₂ contents he₁ he₂ hc₁ hc₂
  · intro id e' hid
    rcases helement id e' hid with ⟨-, hnodup⟩ | ⟨e, he, hgrows⟩
    · exact hnodup
    · obtain ⟨added, hadded, hnew, hnodup⟩ := hgrows
      obtain rfl := NodeKind.element.inj hadded
      rw [List.map_append]
      refine List.Nodup.append (ha.distinct id e he) hnodup ?_
      intro name hold hname
      obtain ⟨b, hb, rfl⟩ := List.mem_map.1 hold
      obtain ⟨a, ha', hname⟩ := List.mem_map.1 hname
      exact hnew a ha' b hb hname

/-- What is attached is known. -/
theorem Apart.attached (ha : Apart doc) (t : Tree doc kids) {p c : NodeId} (hc : c ∈ doc.forest.kids p) :
    ∃ kind, doc.forest.kind c = some kind ∧ kind ≠ .documentFragment := by
  obtain ⟨n, hn⟩ := t.get_child (t.forest_kids ▸ hc)
  refine ⟨n.kind, kind_of_get hn, ?_⟩
  intro hfragment
  exact ha.free p c hc (by rw [kind_of_get hn, hfragment])

/-- A change of the child lists only. -/
theorem Apart.of_kind_eq (ha : Apart doc) (hk : doc'.forest.kind = doc.forest.kind)
    (hattached : ∀ p, ∀ c ∈ doc'.forest.kids p, ∃ kind, doc.forest.kind c = some kind ∧ kind ≠ .documentFragment) :
    Apart doc' := by
  refine ha.of_keeps (.of_kind_eq (fun id _ => congrFun hk id)) hattached ?_
  intro id e' hid
  rw [hk] at hid
  exact .inr ⟨e', hid, .refl _⟩

/-- A link of what is no fragment keeps the fragments apart. -/
theorem Apart.link (ha : Apart doc) (t : Tree doc kids) {place : Place} {id : NodeId} {r : Except DomError Unit}
    (h : place.link doc id = .some (r, doc')) (hlinked : ∀ kind ∈ doc.forest.kind id, kind ≠ .documentFragment) :
    Apart doc' := by
  rcases some_eq_of_linked t h with rfl | ⟨p, L, R, hb, hatt, t', hk⟩
  · exact ha
  · refine ha.of_kind_eq hk ?_
    intro q c hc
    rw [t'.forest_kids] at hc
    by_cases hq : q = p
    · subst hq
      rw [LinkedForest.setKids_self] at hc
      rcases List.mem_append.1 hc with hc | hc
      · exact ha.attached t (hb.kids_eq ▸ List.mem_append_left _ hc)
      · rcases List.mem_cons.1 hc with rfl | hc
        · obtain ⟨n, hn⟩ := known_iff.1 hatt.knownChild
          exact ⟨n.kind, kind_of_get hn, hlinked _ (kind_of_get hn)⟩
        · exact ha.attached t (hb.kids_eq ▸ List.mem_append_right _ hc)
    · rw [LinkedForest.setKids_ne _ _ hq] at hc
      exact ha.attached t hc

/-- Detaching a node keeps the fragments apart. -/
theorem Apart.detach (ha : Apart doc) (t : Tree doc kids) {id : NodeId} {r : Except DomError Unit}
    (h : doc.detach id = (r, doc')) : Apart doc' := by
  rcases some_eq_of_outcome (t.detach id) (congrArg Part.some h) with rfl | ⟨t', hk⟩
  · exact ha
  · refine ha.of_kind_eq (by rw [hk, OrderedForest.kind_remove]) ?_
    intro q c hc
    rw [t'.forest_kids, OrderedForest.mem_remove t.forest_uniqueParents] at hc
    exact ha.attached t hc.1

/-- Moving children keeps the fragments apart. -/
theorem Apart.reparent (ha : Apart doc) (t : Tree doc kids) {source target : NodeId} {r : Except DomError Unit}
    (h : doc.reparentChildren source target = .some (r, doc')) : Apart doc' := by
  rcases some_eq_of_outcome (t.reparentChildren source target) h with rfl | ⟨t', hk⟩
  · exact ha
  · refine ha.of_kind_eq (by rw [hk, kind_reparent]) ?_
    intro q c hc
    rw [t'.forest_kids] at hc
    obtain ⟨p, hp⟩ := attached_of_reparent hc
    exact ha.attached t hp

/-- Of a new node and the others. -/
theorem kind_create (t : Tree doc kids) (kind : NodeKind) {id : NodeId} {kind' : NodeKind}
    (h : (doc.create kind).2.forest.kind id = some kind') : kind' = kind ∨ doc.forest.kind id = some kind' := by
  by_cases hid : id = (doc.create kind).1
  · obtain ⟨n, hn, rfl⟩ := Option.map_eq_some_iff.1 h
    by_cases hroom : doc.len < u32Max
    · rw [get_create hroom, if_pos hid] at hn
      obtain rfl := Option.some.inj hn
      exact .inl rfl
    · rw [create_full hroom, hid, get_create_id t.capped] at hn
      cases hn
  · rw [kind_eq (get_create_ne kind hid)] at h
    exact .inr h

/-- A new node without template contents keeps the fragments apart. -/
theorem Apart.create (ha : Apart doc) (t : Tree doc kids) {kind : NodeKind}
    (h : ∀ e, kind = .element e → e.templateContents = none) (hmade : Rules.parser.made kind) :
    Apart (doc.create kind).2 := by
  refine ha.of_keeps (keeps_create t kind) ?_ ?_
  · intro p c hc
    rw [(t.create kind).forest_kids, ← t.forest_kids] at hc
    exact ha.attached t hc
  · intro id e' hid
    rcases kind_create t kind hid with hkind | hold
    · exact .inl ⟨h e' hkind.symm, hmade e' hkind.symm⟩
    · exact .inr ⟨e', hold, .refl _⟩

/-- A node that grows keeps the fragments apart. -/
theorem Apart.grow (ha : Apart doc) (t : Tree doc kids) {id : NodeId} {f : Node → Node}
    (hlinks : ∀ n, (f n).links = n.links) (h : ∀ n, doc.get id = some n → Grows n.kind (f n).kind) :
    Apart (doc.modify id f) := by
  refine ha.of_keeps (keeps_modify h) ?_ ?_
  · intro p c hc
    rw [(t.modify id hlinks).forest_kids, ← t.forest_kids] at hc
    exact ha.attached t hc
  · intro x e' hx
    obtain ⟨n', hn', hkind⟩ := Option.map_eq_some_iff.1 hx
    rw [get_modify] at hn'
    split at hn'
    · rename_i hid
      obtain ⟨n, hn, rfl⟩ := Option.map_eq_some_iff.1 hn'
      subst hid
      have hgrows := h n hn
      rw [hkind] at hgrows
      cases hold : n.kind with
      | element e =>
        rw [hold] at hgrows
        exact .inr ⟨e, by rw [kind_of_get hn, hold], hgrows⟩
      | text text =>
        rw [hold] at hgrows
        obtain ⟨more, hmore⟩ := hgrows
        cases hmore
      | _ =>
        rw [hold] at hgrows
        cases hgrows
    · exact .inr ⟨e', by rw [kind_of_get hn', hkind], .refl _⟩

/-- While there is room, a new node gets the next id. -/
theorem create_id (h : doc.len < u32Max) (kind : NodeKind) : (doc.create kind).1 = .fromIndex doc.len := by
  rw [Document.create, if_neg (Nat.not_le.2 h)]

/-- Ids in range are different for different positions. -/
theorem fromIndex_inj {i j : Nat} (hi : i ≤ u32Max) (hj : j ≤ u32Max) (h : NodeId.fromIndex i = .fromIndex j) : i = j := by
  have := congrArg NodeId.index h
  rwa [NodeId.index_fromIndex hi, NodeId.index_fromIndex hj] at this

/-- The kinds of the nodes after a template is made, where there is room for its contents. -/
theorem kind_template (hroom : doc.len + 1 < u32Max) (name : QualName) (attrs : List Attr) (id : NodeId) :
    (DomSink.createElement doc name attrs ⟨true⟩).2.forest.kind id =
      if id = .fromIndex doc.len then some (.element { name, attrs, templateContents := some (.fromIndex (doc.len + 1)) })
      else if id = .fromIndex (doc.len + 1) then some .documentFragment
      else doc.forest.kind id := by
  have hroom₁ : doc.len < u32Max := by omega
  have hne : NodeId.fromIndex doc.len ≠ .fromIndex (doc.len + 1) := by
    intro h
    have := fromIndex_inj (by omega) (by omega) h
    omega
  have hlen := len_create hroom₁ (.element { name, attrs, templateContents := none })
  have hroom₂ : (doc.create (.element { name, attrs, templateContents := none })).2.len < u32Max := by omega
  simp only [DomSink.createElement, if_true, forest, get_modify, get_create hroom₁, get_create hroom₂, create_id hroom₁,
    create_id hroom₂, hlen]
  by_cases h₁ : id = .fromIndex doc.len
  · subst h₁
    simp only [if_true, if_neg hne, Option.map_some]
  · by_cases h₂ : id = .fromIndex (doc.len + 1)
    · subst h₂
      simp only [if_true, if_neg h₁, Option.map_some]
    · simp only [if_neg h₁, if_neg h₂]

/-- Past the end there is no node. -/
theorem kind_fromIndex_none {i : Nat} (h : doc.len ≤ i) (hi : i ≤ u32Max) :
    doc.forest.kind (.fromIndex i) = none := by
  refine Option.map_eq_none_iff.2 (List.getElem?_eq_none ?_)
  rwa [NodeId.index_fromIndex hi]

/-- An element with template contents keeps the fragments apart, while there is room. -/
theorem Apart.template (ha : Apart doc) (t : Tree doc kids) (hroom : doc.len + 1 < u32Max) {name : QualName} {attrs : List Attr}
    (hmade : (attrs.map Attr.name).Nodup) : Apart (DomSink.createElement doc name attrs ⟨true⟩).2 := by
  have hkind := kind_template hroom name attrs
  have hkeeps := keeps_template t name attrs
  have hnone := kind_fromIndex_none (Nat.le_succ doc.len) hroom.le
  -- an element is the new template, or was there before
  have cases : ∀ {id e}, (DomSink.createElement doc name attrs ⟨true⟩).2.forest.kind id = some (.element e) →
      id = .fromIndex doc.len ∧ e = { name, attrs, templateContents := some (.fromIndex (doc.len + 1)) } ∨
        doc.forest.kind id = some (.element e) := by
    intro id e h
    rw [hkind] at h
    split_ifs at h with hid hcontents
    · exact .inl ⟨hid, (NodeKind.element.inj (Option.some.inj h)).symm⟩
    · cases h
    · exact .inr h
  have old : ∀ {id e contents}, doc.forest.kind id = some (.element e) → e.templateContents = some contents →
      contents ≠ .fromIndex (doc.len + 1) := by
    rintro id e _ he hcontents rfl
    rw [ha.fragment id e _ he hcontents] at hnone
    cases hnone
  constructor
  · exact ha.root_of_keeps hkeeps
  · refine hkeeps.free ?_
    intro p c hc
    rw [(tree_template t name attrs).forest_kids, ← t.forest_kids] at hc
    exact ha.attached t hc
  · intro id e contents hid hcontents
    rcases cases hid with ⟨rfl, rfl⟩ | he
    · obtain rfl := Option.some.inj hcontents
      rw [hkind, if_neg, if_pos rfl]
      intro h
      have := fromIndex_inj hroom.le (by omega) h
      omega
    · exact hkeeps.fragment (ha.fragment id e contents he hcontents)
  · intro id id' e e' contents hid hid' hcontents hcontents'
    rcases cases hid with ⟨rfl, rfl⟩ | he
    · rcases cases hid' with ⟨rfl, rfl⟩ | he'
      · rfl
      · exact absurd (Option.some.inj hcontents).symm (old he' hcontents')
    · rcases cases hid' with ⟨rfl, rfl⟩ | he'
      · exact absurd (Option.some.inj hcontents').symm (old he hcontents)
      · exact ha.alone id id' e e' contents he he' hcontents hcontents'
  · intro id e hid
    rcases cases hid with ⟨rfl, rfl⟩ | he
    · exact hmade
    · exact ha.distinct id e he

/-- No change takes a node away. -/
theorem Keeps.len_le (t : Tree doc kids) (h : Keeps doc doc') : doc.len ≤ doc'.len := by
  have hpos := t.nonempty
  have hcap := t.capped
  have hlast : (⟨doc.len - 1, by omega⟩ : NodeId).index < doc.nodes.length := Nat.sub_lt hpos Nat.one_pos
  obtain ⟨kind', hkind', -⟩ := h _ _ (kind_of_get (List.getElem?_eq_getElem hlast))
  obtain ⟨n, hn, -⟩ := Option.map_eq_some_iff.1 hkind'
  have := Tree.index_lt_len hn
  dsimp only at this
  omega

/-- An element with template contents is two nodes. -/
theorem len_template (doc : Document) (name : QualName) (attrs : List Attr)
    (h : (DomSink.createElement doc name attrs ⟨true⟩).2.len < u32Max) : doc.len + 1 < u32Max := by
  simp only [DomSink.createElement, if_true, len_modify] at h
  have hroom₁ : doc.len < u32Max := by
    by_contra hfull
    rw [create_full hfull, create_full hfull] at h
    exact hfull h
  have hlen := len_create hroom₁ (.element { name, attrs, templateContents := none })
  by_contra hfull
  rw [create_full (by omega)] at h
  omega

/-- A change by the rules keeps the fragments apart. -/
theorem Change.apart (t : Tree doc kids) (h : Change .parser doc doc') (hroom : doc'.len < u32Max) (ha : Apart doc) :
    Apart doc' := by
  cases h with
  | create kind hcontents hmade => exact ha.create t hcontents hmade
  | template name attrs hmade => exact ha.template t (len_template doc name attrs hroom) (hmade _ rfl)
  | grow id f hlinks h => exact ha.grow t hlinks h
  | link place id h hlinked => exact ha.link t h hlinked
  | detach id h => exact ha.detach t h
  | reparent source target h => exact ha.reparent t h
  | quirks mode =>
    have t' : Tree (doc.setQuirksMode mode) kids := ⟨t.represents, t.wf, t.root, t.nonempty, t.capped⟩
    refine ha.of_kind_eq rfl ?_
    intro p c hc
    rw [t'.forest_kids, ← t.forest_kids] at hc
    exact ha.attached t hc

/-- An element is a node of that kind. -/
theorem element_eq_some {id : NodeId} {e : Element} (h : doc.element id = some e) :
    doc.forest.kind id = some (.element e) := by
  unfold Document.element at h
  cases hn : doc.get id with
  | none => simp [hn] at h
  | some n =>
    rw [kind_of_get hn]
    cases hkind : n.kind <;> simp_all

/-- Each template has contents of its own. -/
theorem Apart.templates (ha : Apart doc) (t : Tree doc kids) : Serialize.Templates doc := by
  constructor
  · intro id e contents helement hcontents
    have hfragment := ha.fragment id e contents (element_eq_some helement) hcontents
    obtain ⟨n, hn, hkind⟩ := Option.map_eq_some_iff.1 hfragment
    refine ⟨n, hn, hkind, Option.eq_none_iff_forall_ne_some.2 ?_⟩
    intro p hp
    have hchild := (t.parent_iff hn).1 hp
    exact ha.free p contents (t.forest_kids ▸ hchild) hfragment
  · intro id id' e e' contents helement helement' hcontents hcontents'
    exact ha.alone id id' e e' contents (element_eq_some helement) (element_eq_some helement') hcontents hcontents'

/-- The root is no template's contents. -/
theorem Apart.rootApart (ha : Apart doc) : Serialize.RootApart doc := by
  intro id e helement hcontents
  have hfragment := ha.fragment id e doc.root (element_eq_some helement) hcontents
  rw [ha.root] at hfragment
  cases hfragment

/-- A new document has no fragments. -/
theorem apart_new (baseUrl : String) : Apart (Document.new baseUrl) := by
  have kind : ∀ id k, (Document.new baseUrl).forest.kind id = some k → k = .document := by
    intro id k hk
    obtain ⟨n, hn, rfl⟩ := Option.map_eq_some_iff.1 hk
    obtain rfl := List.mem_singleton.1 (List.mem_of_getElem? hn)
    rfl
  constructor
  · rfl
  · intro p c hc
    rw [(tree_new baseUrl).forest_kids] at hc
    cases hc
  · intro id e contents hid
    cases kind id _ hid
  · intro id id' e e' contents hid
    cases kind id _ hid
  · intro id e hid
    cases kind id _ hid

/-! ## The base URL -/

/-- A new node leaves the base URL as it is. -/
theorem baseUrl_create (doc : Document) (kind : NodeKind) : (doc.create kind).2.baseUrl = doc.baseUrl := by
  unfold create
  split <;> rfl

/-- Unlinking leaves the base URL as it is. -/
theorem baseUrl_unlink (doc : Document) (id : NodeId) : (doc.unlink id).baseUrl = doc.baseUrl := by
  unfold unlink
  split
  · rfl
  · split
    · rfl
    · dsimp only
      split <;> split <;> rfl

/-- Linking at the end leaves the base URL as it is. -/
theorem baseUrl_linkLast (doc : Document) (parent child : NodeId) : (doc.linkLast parent child).baseUrl = doc.baseUrl := by
  unfold linkLast
  dsimp only
  split <;> rfl

/-- Linking before a sibling leaves the base URL as it is. -/
theorem baseUrl_linkBefore (doc : Document) (parent sibling new : NodeId) :
    (doc.linkBefore parent sibling new).baseUrl = doc.baseUrl := by
  unfold linkBefore
  dsimp only
  split <;> rfl

/-- `append_child` leaves the base URL as it is. -/
theorem baseUrl_appendChild {parent child : NodeId} {r : Except DomError Unit}
    (h : doc.appendChild parent child = .some (r, doc')) : doc'.baseUrl = doc.baseUrl := by
  unfold appendChild at h
  obtain ⟨check, -, h⟩ := Part.mem_bind_iff.1 (Part.eq_some_iff.1 h)
  cases check with
  | error e =>
    obtain ⟨-, rfl⟩ := Prod.mk.inj (Part.mem_some_iff.1 h)
    rfl
  | ok u =>
    obtain ⟨-, rfl⟩ := Prod.mk.inj (Part.mem_some_iff.1 h)
    exact baseUrl_linkLast doc parent child

/-- `insert_before` leaves the base URL as it is. -/
theorem baseUrl_insertBefore {sibling new : NodeId} {r : Except DomError Unit}
    (h : doc.insertBefore sibling new = .some (r, doc')) : doc'.baseUrl = doc.baseUrl := by
  unfold insertBefore at h
  split at h
  · obtain ⟨-, rfl⟩ := Prod.mk.inj (Part.some_injective h)
    rfl
  · split at h
    · obtain ⟨-, rfl⟩ := Prod.mk.inj (Part.some_injective h)
      rfl
    · split at h
      · obtain ⟨-, rfl⟩ := Prod.mk.inj (Part.some_injective h)
        rfl
      · obtain ⟨check, -, h⟩ := Part.mem_bind_iff.1 (Part.eq_some_iff.1 h)
        cases check with
        | error e =>
          obtain ⟨-, rfl⟩ := Prod.mk.inj (Part.mem_some_iff.1 h)
          rfl
        | ok u =>
          obtain ⟨-, rfl⟩ := Prod.mk.inj (Part.mem_some_iff.1 h)
          exact baseUrl_linkBefore doc _ sibling new

/-- `reparent_children` leaves the base URL as it is. -/
theorem baseUrl_reparentChildren {source target : NodeId} {r : Except DomError Unit}
    (h : doc.reparentChildren source target = .some (r, doc')) : doc'.baseUrl = doc.baseUrl := by
  unfold reparentChildren at h
  split at h
  · obtain ⟨-, rfl⟩ := Prod.mk.inj (Part.some_injective h)
    rfl
  · split at h
    · obtain ⟨-, rfl⟩ := Prod.mk.inj (Part.some_injective h)
      rfl
    · split at h
      · obtain ⟨-, rfl⟩ := Prod.mk.inj (Part.some_injective h)
        rfl
      · obtain ⟨above, -, h⟩ := Part.mem_bind_iff.1 (Part.eq_some_iff.1 h)
        split at h
        · obtain ⟨-, rfl⟩ := Prod.mk.inj (Part.mem_some_iff.1 h)
          rfl
        · obtain ⟨moved, hmoved, h⟩ := Part.mem_bind_iff.1 h
          obtain ⟨-, rfl⟩ := Prod.mk.inj (Part.mem_some_iff.1 h)
          have hstep : ∀ d d', d.baseUrl = doc.baseUrl → reparentStep source target d = .inl d' → d'.baseUrl = doc.baseUrl := by
            intro d d' hd hstep
            unfold reparentStep at hstep
            split at hstep
            · obtain rfl := Sum.inl.inj hstep
              rw [baseUrl_linkLast, baseUrl_unlink, hd]
            · cases hstep
          obtain ⟨last, -, hlast, hend⟩ := While.loop_invariant hstep rfl (Part.eq_some_iff.2 hmoved)
          unfold reparentStep at hend
          split at hend
          · cases hend
          · obtain rfl := Sum.inr.inj hend
            exact hlast

/-- The base URL of a document is that of its construction. -/
theorem Change.baseUrl (h : Change rules doc doc') : doc'.baseUrl = doc.baseUrl := by
  cases h with
  | create kind => exact baseUrl_create doc kind
  | template name attrs => exact (baseUrl_create _ _).trans (baseUrl_create _ _)
  | grow id f => rfl
  | link place id h =>
    cases place with
    | last parent => exact baseUrl_appendChild h
    | before sibling => exact baseUrl_insertBefore h
  | detach id h =>
    unfold Document.detach at h
    split at h
    · obtain ⟨-, rfl⟩ := Prod.mk.inj h
      rfl
    · obtain ⟨-, rfl⟩ := Prod.mk.inj h
      exact baseUrl_unlink doc id
  | reparent source target h => exact baseUrl_reparentChildren h
  | quirks mode => rfl

/-- Changes leave the base URL as it is. -/
theorem baseUrl_of_changes (h : Relation.ReflTransGen (Change rules) doc doc') : doc'.baseUrl = doc.baseUrl := by
  induction h with
  | refl => rfl
  | tail _ hchange ih => rw [hchange.baseUrl, ih]

/-! ## Parses -/

namespace DomSink

/-- Changes keep every node. -/
theorem keeps_of_changes (t : Tree doc kids) (h : Relation.ReflTransGen (Change rules) doc doc') : Keeps doc doc' := by
  induction h with
  | refl => exact .of_kind_eq (fun _ _ => rfl)
  | tail hchanges hchange ih =>
    obtain ⟨kids', t'⟩ := exists_tree_of_changes t hchanges
    exact ih.trans (hchange.keeps t')

/-- Changes by the rules keep the fragments apart, while there is room. -/
theorem apart_of_changes (t : Tree doc kids) (ha : Apart doc) (h : Relation.ReflTransGen (Change .parser) doc doc')
    (hroom : doc'.len < u32Max) : Apart doc' := by
  induction h with
  | refl => exact ha
  | tail hchanges hchange ih =>
    obtain ⟨kids', t'⟩ := exists_tree_of_changes t hchanges
    exact hchange.apart t' hroom (ih ((hchange.keeps t').len_le t' |>.trans_lt hroom))

/-- Every parse returns a document of the base URL that is the tree its links say. -/
theorem tree_of_parse (baseUrl : String) (calls : List TreeCall) :
    ∃ output kids, parse baseUrl calls = .some output ∧ Tree output.document kids ∧ output.document.baseUrl = baseUrl := by
  have t : Tree (DomSink.new baseUrl).doc (fun _ => []) := tree_new baseUrl
  obtain ⟨sink, hrun, hchanges⟩ := changes_of_run .any t (obeys_any calls _)
  obtain ⟨kids, t'⟩ := exists_tree_of_changes t hchanges
  exact ⟨sink.finish, kids, by rw [parse, hrun, Part.map_some], t', baseUrl_of_changes hchanges⟩

/-- Whatever the tree builder asks of the sink and in whatever order, the parse returns a consistent document with the first parse
errors, and the others counted. -/
theorem parse_consistent (baseUrl : String) (calls : List TreeCall) :
    ∃ output, parse baseUrl calls = .some output ∧ output.document.Consistent ∧
      output.parseErrors = (messages calls).take maxParseErrors ∧
      output.parseErrorsSuppressed = min ((messages calls).length - maxParseErrors) usizeMax := by
  have t : Tree (DomSink.new baseUrl).doc (fun _ => []) := tree_new baseUrl
  obtain ⟨sink, hrun, hchanges⟩ := changes_of_run .any t (obeys_any calls _)
  obtain ⟨kids, t'⟩ := exists_tree_of_changes t hchanges
  have hstart : Reports [] (DomSink.new baseUrl) := ⟨rfl, rfl⟩
  have hreports : Reports (messages calls) sink := hstart.run hrun
  exact ⟨sink.finish, by rw [parse, hrun, Part.map_some], t'.consistent, hreports.errors, hreports.errorsSuppressed⟩

/-- Calls one after another. -/
theorem run_append (calls more : List TreeCall) (sink : DomSink) : run (calls ++ more) sink = run calls sink >>= run more := by
  induction calls generalizing sink with
  | nil => rw [List.nil_append, run, Part.bind_eq_bind, Part.bind_some]
  | cons treeCall calls ih =>
    simp only [List.cons_append, run, Part.bind_eq_bind, Part.bind_assoc, ih]

/-- What was built stays, whatever the tree builder asks for later: every node keeps its kind, its name and its attributes, and a
text all of its characters. -/
theorem run_keeps (baseUrl : String) (calls more : List TreeCall) :
    ∃ sink sink', run calls (.new baseUrl) = .some sink ∧ run (calls ++ more) (.new baseUrl) = .some sink' ∧
      Keeps sink.doc sink'.doc := by
  have t : Tree (DomSink.new baseUrl).doc (fun _ => []) := tree_new baseUrl
  obtain ⟨sink, hrun, hchanges⟩ := changes_of_run .any t (obeys_any calls _)
  obtain ⟨kids, t'⟩ := exists_tree_of_changes t hchanges
  obtain ⟨sink', hrun', hchanges'⟩ := changes_of_run .any t' (obeys_any more _)
  refine ⟨sink, sink', hrun, ?_, keeps_of_changes t' hchanges'⟩
  rw [run_append, hrun, Part.bind_eq_bind, Part.bind_some, hrun']

/-- What html5ever leaves in the sink. -/
structure Parsed (doc : Document) : Prop where
  templates : Serialize.Templates doc
  root : Serialize.RootApart doc
  attributes : ∀ id e, doc.element id = some e → (e.attrs.map Attr.name).Nodup
  /-- The dump is that of the logical tree, each node once. -/
  dump : ∃ F : Forest NodeId, F.roots = doc.children doc.root ∧ F.Follows (Serialize.logicalChildren doc) ∧
    (doc.root :: F.preorder).Nodup ∧ Serialize.html5libTree doc = ['\n'].intercalate
      ("#document".toList :: (F.depths (Serialize.levels doc) 1).preorder.flatMap (Serialize.shownLines doc))

/-- Where html5ever keeps to its rules, the contents of every template are a fragment of its own that hangs nowhere, no element has
two attributes of one name, and the dump shows each node of the logical tree once. A full arena may have refused a template its
contents. -/
theorem parse_templates (baseUrl : String) (calls : List TreeCall) (h : Obeys .parser calls (Document.new baseUrl)) :
    ∃ output, parse baseUrl calls = .some output ∧ (output.document.len < u32Max → Parsed output.document) := by
  have t : Tree (DomSink.new baseUrl).doc (fun _ => []) := tree_new baseUrl
  obtain ⟨sink, hrun, hchanges⟩ := changes_of_run .parser t h
  obtain ⟨kids, t'⟩ := exists_tree_of_changes t hchanges
  refine ⟨sink.finish, by rw [parse, hrun, Part.map_some], ?_⟩
  intro hroom
  have ha := apart_of_changes t (apart_new baseUrl) hchanges hroom
  have htemplates := ha.templates t'
  obtain ⟨F, hF, hFF, hnodup, hsize⟩ := htemplates.exists_tree ha.rootApart t'
  refine ⟨htemplates, ha.rootApart, fun id e helement => ha.distinct id e (element_eq_some helement), F, hF, hFF, hnodup, ?_⟩
  have hlines := Serialize.linesFrom_eq hFF hsize 1
  rw [hF] at hlines
  rw [Serialize.html5libTree, Serialize.documentLines, Serialize.pushChildren, List.append_nil]
  exact congrArg _ (congrArg _ hlines)

/-- A template with attributes, put into the document, with a text in its contents, and given more attributes. -/
def templateCalls : List TreeCall :=
  [.parseError "unexpected token", .build (.createElement ⟨none, "html", "template"⟩ [⟨⟨none, "", "id"⟩, ['a']⟩] ⟨true⟩),
    .build (.append (.fromIndex 0) (.appendNode (.fromIndex 1))), .build (.append (.fromIndex 2) (.appendText ['b'])),
    .addAttrsIfMissing (.fromIndex 1) [⟨⟨none, "", "id"⟩, ['c']⟩, ⟨⟨none, "", "class"⟩, ['d']⟩]]

/-- The calls obey the parser's rules. -/
theorem obeys_templateCalls : Obeys .parser templateCalls (Document.new "") := by
  refine ⟨nofun, nofun, ?_⟩
  intro doc hdoc
  obtain rfl := Part.mem_some_iff.1 hdoc
  refine ⟨?_, nofun, ?_⟩
  · rintro _ ⟨⟩ e he
    obtain rfl := NodeKind.element.inj he
    decide
  intro doc hdoc
  obtain rfl := Part.mem_some_iff.1 hdoc
  refine ⟨nofun, ?_, fun _ _ => ⟨nofun, nofun, fun _ _ => ⟨nofun, nofun, fun _ _ => trivial⟩⟩⟩
  rintro _ ⟨⟩ kind hkind
  obtain rfl := Option.some.inj hkind
  exact nofun

/-- A run whose first call is known. -/
theorem run_of_call {sink sink' : DomSink} {treeCall : TreeCall} (h : sink.call treeCall = .some sink') (calls : List TreeCall) :
    run (treeCall :: calls) sink = run calls sink' := by
  rw [run, h, Part.bind_eq_bind, Part.bind_some]

/-- A call that builds changes only the document. -/
theorem call_build {sink : DomSink} {k : Call} {doc' : Document} (h : perform sink.doc k = .some doc') :
    sink.call (.build k) = .some { sink with doc := doc' } := by
  rw [call, change, h, Part.map_some]
  exact nofun

/-- The calls leave the document node, the template, its contents and the text there. -/
theorem parse_templateCalls : ∃ output, parse "" templateCalls = .some output ∧ output.document.len = 4 := by
  let d1 : Document := (createElement (Document.new "") ⟨none, "html", "template"⟩ [⟨⟨none, "", "id"⟩, ['a']⟩] ⟨true⟩).2
  let d2 : Document := d1.linkLast (.fromIndex 0) (.fromIndex 1)
  let d3 : Document := (d2.create (.text ['b'])).2
  have hcheck : d1.checkAttach (.fromIndex 0) (.fromIndex 1) = .some (.ok ()) :=
    checkAttach_of_leaf rfl rfl (by decide) (by decide) rfl rfl
  have hcheckText : d3.checkAttach (.fromIndex 2) (.fromIndex 3) = .some (.ok ()) :=
    checkAttach_of_leaf rfl rfl (by decide) (by decide) rfl rfl
  have hcreate : perform (Document.new "") (.createElement ⟨none, "html", "template"⟩ [⟨⟨none, "", "id"⟩, ['a']⟩] ⟨true⟩) =
      .some d1 := rfl
  have happend : perform d1 (.append (.fromIndex 0) (.appendNode (.fromIndex 1))) = .some d2 := by
    simp only [perform, DomSink.append, appendChild, hcheck, Part.bind_eq_bind, Part.bind_some, Part.map_some]
    rfl
  have htext : perform d2 (.append (.fromIndex 2) (.appendText ['b'])) = .some (d3.linkLast (.fromIndex 2) (.fromIndex 3)) := by
    have hput : perform d2 (.append (.fromIndex 2) (.appendText ['b'])) =
        (d3.appendChild (.fromIndex 2) (.fromIndex 3)).map (·.2) := rfl
    rw [hput]
    simp only [appendChild, hcheckText, Part.bind_eq_bind, Part.bind_some, Part.map_some]
  have hattrs : ∀ {sink : DomSink} {target : NodeId} {attrs : List Attr}, sink.call (.addAttrsIfMissing target attrs) =
      .some { sink with doc := addAttrsIfMissing sink.doc target attrs } := Part.map_some _ _
  have hrun : ∃ sink, run templateCalls (.new "") = .some sink ∧ sink.doc.len = 4 :=
    ⟨_, (run_of_call rfl _).trans <| (run_of_call (call_build hcreate) _).trans <| (run_of_call (call_build happend) _).trans <|
      (run_of_call (call_build htext) _).trans <| run_of_call hattrs [], rfl⟩
  obtain ⟨sink, hrun, hlen⟩ := hrun
  exact ⟨sink.finish, by rw [parse, hrun, Part.map_some], hlen⟩

/-- The template's contents are dumped below it. -/
theorem parse_templates_templateCalls : ∃ output, parse "" templateCalls = .some output ∧ Parsed output.document := by
  obtain ⟨output, houtput, hparsed⟩ := parse_templates "" templateCalls obeys_templateCalls
  obtain ⟨output', houtput', hlen⟩ := parse_templateCalls
  obtain rfl := Part.some_injective (houtput'.symm.trans houtput)
  exact ⟨_, houtput, hparsed (hlen ▸ by decide)⟩

end DomSink

end ChromeLight
