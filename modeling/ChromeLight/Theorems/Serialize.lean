import ChromeLight.Serialize
import ChromeLight.Theorems.Traverse

/-!
# The dump shows the logical tree

The dump shows below an element its children, or, where it is a template, what its contents fragment holds; below a fragment its
children; and nothing below the other nodes. That is a tree below the root as soon as every contents fragment belongs to one
template and hangs nowhere itself (`Templates`): no other node shows its children then. The walk visits every node of this tree
once, so its cap never ends it early, and the lines are those of the nodes in pre-order, each at its depth (`html5libTree_eq`).

A document may hold nodes that are not in this tree: a text can be given children, which have no line. And there is no tree at all
where the root, made a fragment, is the contents of a template below it.
-/

namespace ChromeLight

namespace Serialize

open Document (Tree)

/-! ## The logical tree -/

/-- The node whose children the dump shows below a node, if it shows any. -/
def listed (doc : Document) (id : NodeId) : Option NodeId :=
  match (doc.get id).map Node.kind with
  | some (.element element) => some (element.templateContents.getD id)
  | some .documentFragment => some id
  | _ => none

/-- The children of a node in the logical tree. -/
def logicalChildren (doc : Document) (id : NodeId) : List NodeId :=
  match listed doc id with
  | some parent => doc.children parent
  | none => []

/-- The children of a node as its child list has them: those of its contents for a template, its own for every other node. -/
def listedChildren (doc : Document) (id : NodeId) : List NodeId :=
  doc.children (((doc.element id).bind (·.templateContents)).getD id)

/-- Only elements and fragments, and the root, have children. -/
def ContainersOnly (doc : Document) : Prop :=
  ∀ id, id ≠ doc.root → listed doc id = none → doc.children id = []

/-- How much deeper than a node its logical children are: the content line of a template takes one more level, and a fragment has
no line of its own. -/
def levels (doc : Document) (id : NodeId) : Nat :=
  match (doc.get id).map Node.kind with
  | some (.element element) => if element.templateContents.isSome then 2 else 1
  | _ => 0

/-- The lines a node adds to the dump: its own, those of its attributes, and the content line of a template. -/
def shownLines (doc : Document) (shown : NodeId × Nat) : List StrTendril :=
  match doc.get shown.1 with
  | none => []
  | some node =>
    nodeLines node shown.2 ++
      match node.kind with
      | .element element => if element.templateContents.isSome then [contentLine shown.2] else []
      | _ => []

/-- The contents of a template, as the parser makes them: a fragment without parent, that no other template has. -/
structure Templates (doc : Document) : Prop where
  fragment : ∀ id element contents, doc.element id = some element → element.templateContents = some contents →
    ∃ n, doc.get contents = some n ∧ n.kind = .documentFragment ∧ n.parent = none
  alone : ∀ id id' element element' contents, doc.element id = some element → doc.element id' = some element' →
    element.templateContents = some contents → element'.templateContents = some contents → id = id'

/-- The root is not the contents of a template. -/
def RootApart (doc : Document) : Prop :=
  ∀ id element, doc.element id = some element → element.templateContents ≠ some doc.root

variable {doc : Document} {kids : NodeId → List NodeId}

/-- Where only elements and fragments have children, the logical tree is that of the child lists. -/
theorem ContainersOnly.logicalChildren_eq (h : ContainersOnly doc) {id : NodeId} (hne : id ≠ doc.root) :
    logicalChildren doc id = listedChildren doc id := by
  unfold logicalChildren listedChildren
  cases hn : doc.get id with
  | none =>
    have hlisted : listed doc id = none := by simp [listed, hn]
    simp [hlisted, Document.element, hn, h id hne hlisted]
  | some n =>
    cases hkind : n.kind with
    | element element => simp [listed, Document.element, hn, hkind]
    | documentFragment => simp [listed, Document.element, hn, hkind]
    | _ =>
      have hlisted : listed doc id = none := by simp [listed, hn, hkind]
      simp [hlisted, Document.element, hn, hkind, h id hne hlisted]

/-- A walk of the dump emits the lines of the node on top, and goes on with its logical children. -/
theorem linesFrom_cons (doc : Document) (remaining : Nat) (shown : NodeId × Nat) (stack : List (NodeId × Nat)) :
    linesFrom doc (remaining + 1) (shown :: stack) = shownLines doc shown ++ linesFrom doc remaining
      ((logicalChildren doc shown.1).map (fun c => (c, shown.2 + levels doc shown.1)) ++ stack) := by
  obtain ⟨id, depth⟩ := shown
  rw [linesFrom]
  simp only [shownLines, logicalChildren, listed, levels]
  cases hid : doc.get id with
  | none => rfl
  | some node =>
    cases hkind : node.kind with
    | element element =>
      cases hcontents : element.templateContents with
      | some contents => simp [hkind, hcontents, pushChildren]
      | none => simp [hkind, hcontents, pushChildren]
    | documentFragment => simp [hkind, pushChildren]
    | _ => simp [hkind]

/-- The children shown below a node are its own, or those of its contents fragment. -/
theorem listed_cases {p a : NodeId} (h : listed doc p = some a) :
    a = p ∨ ∃ element, doc.element p = some element ∧ element.templateContents = some a := by
  obtain ⟨n, hn⟩ : ∃ n, doc.get p = some n := by
    cases hp : doc.get p with
    | none => simp [listed, hp] at h
    | some n => exact ⟨n, rfl⟩
  cases hkind : n.kind with
  | element element =>
    have helement : doc.element p = some element := by simp [Document.element, hn, hkind]
    have hlisted : some (element.templateContents.getD p) = some a := by simpa [listed, hn, hkind] using h
    cases hcontents : element.templateContents with
    | some contents =>
      rw [hcontents] at hlisted
      exact .inr ⟨element, helement, hcontents.trans hlisted⟩
    | none =>
      rw [hcontents] at hlisted
      exact .inl (Option.some.inj hlisted).symm
  | documentFragment =>
    rw [listed, hn, Option.map_some, hkind] at h
    exact .inl (Option.some.inj h).symm
  | _ => simp [listed, hn, hkind] at h

/-! ## It is a tree -/

/-- The node whose children the dump shows below a node: the root shows its own, whatever kind it has. -/
def listedFromRoot (doc : Document) (id : NodeId) : Option NodeId := if id = doc.root then some id else listed doc id

/-- The children of a node in the logical tree, the root included. -/
def treeChildren (doc : Document) (id : NodeId) : List NodeId :=
  match listedFromRoot doc id with
  | some parent => doc.children parent
  | none => []

/-- What is listed below a node. -/
theorem mem_treeChildren {c p : NodeId} : c ∈ treeChildren doc p ↔
    ∃ a, listedFromRoot doc p = some a ∧ c ∈ doc.children a := by
  unfold treeChildren
  cases listedFromRoot doc p <;> simp

/-- Below the root its children are listed. -/
theorem treeChildren_root (doc : Document) : treeChildren doc doc.root = doc.children doc.root := by
  simp [treeChildren, listedFromRoot]

/-- Below any other node its children are listed, or its contents. -/
theorem treeChildren_of_ne {id : NodeId} (h : id ≠ doc.root) : treeChildren doc id = logicalChildren doc id := by
  simp only [treeChildren, listedFromRoot, logicalChildren, if_neg h]

/-- A node lists its own children, or those of its contents. -/
theorem listedFromRoot_cases {p a : NodeId} (h : listedFromRoot doc p = some a) :
    a = p ∨ ∃ element, doc.element p = some element ∧ element.templateContents = some a := by
  unfold listedFromRoot at h
  split at h
  · exact .inl (Option.some.inj h).symm
  · exact listed_cases h

/-- What is in the tree is no contents fragment: these are not the root, and nobody's children. -/
theorem Templates.not_contents (ht : Templates doc) (hroot : RootApart doc) (t : Tree doc kids) {x id : NodeId} {element : Element}
    (hx : Relation.ReflTransGen (Forest.Child (treeChildren doc)) x doc.root) (helement : doc.element id = some element) :
    element.templateContents ≠ some x := by
  intro hcontents
  obtain ⟨n, hn, -, hparent⟩ := ht.fragment id element x helement hcontents
  rcases Relation.ReflTransGen.cases_head hx with rfl | ⟨p, hp, -⟩
  · exact hroot id element helement hcontents
  · obtain ⟨a, -, ha⟩ := mem_treeChildren.1 hp
    rw [t.children_eq] at ha
    exact t.represents.not_mem_of_orphan (Document.links_eq_some hn) hparent a ha

/-- No two nodes of the tree show the same child. -/
theorem Templates.unique (ht : Templates doc) (hroot : RootApart doc) (t : Tree doc kids) {c p q : NodeId}
    (hp : Relation.ReflTransGen (Forest.Child (treeChildren doc)) p doc.root)
    (hq : Relation.ReflTransGen (Forest.Child (treeChildren doc)) q doc.root) (hcp : c ∈ treeChildren doc p)
    (hcq : c ∈ treeChildren doc q) : p = q := by
  obtain ⟨a, hpa, hca⟩ := mem_treeChildren.1 hcp
  obtain ⟨b, hqb, hcb⟩ := mem_treeChildren.1 hcq
  rw [t.children_eq] at hca hcb
  obtain rfl : a = b := t.represents.uniqueParents.parent c a b hca hcb
  rcases listedFromRoot_cases hpa with rfl | ⟨element, helement, hcontents⟩
  · rcases listedFromRoot_cases hqb with rfl | ⟨element, helement, hcontents⟩
    · rfl
    · exact absurd hcontents (ht.not_contents hroot t hp helement)
  · rcases listedFromRoot_cases hqb with rfl | ⟨element', helement', hcontents'⟩
    · exact absurd hcontents (ht.not_contents hroot t hq helement)
    · exact ht.alone p q element element' a helement helement' hcontents hcontents'

/-- The logical tree, below the root: its nodes are distinct, and there are fewer of them than the document has nodes. -/
theorem Templates.exists_tree (ht : Templates doc) (hapart : RootApart doc) (t : Tree doc kids) :
    ∃ F : Forest NodeId, F.roots = doc.children doc.root ∧ F.Follows (logicalChildren doc) ∧ (doc.root :: F.preorder).Nodup ∧
      F.size ≤ doc.len := by
  have hmem : ∀ {c p}, c ∈ treeChildren doc p → ∃ a, c ∈ kids a := by
    intro c p hc
    obtain ⟨a, -, ha⟩ := mem_treeChildren.1 hc
    exact ⟨a, t.children_eq a ▸ ha⟩
  obtain ⟨nodes, hnodes⟩ : ∃ nodes : List NodeId, ∀ p, p ∈ nodes := by
    have := Fintype.ofFinite NodeId
    exact ⟨Finset.univ.toList, fun p => Finset.mem_toList.2 (Finset.mem_univ p)⟩
  have hroot : ∀ p, doc.root ∉ treeChildren doc p := by
    intro p hp
    obtain ⟨a, ha⟩ := hmem hp
    exact t.root a ha
  have hnodup : ∀ p, (treeChildren doc p).Nodup := by
    intro p
    unfold treeChildren
    split
    · rw [t.children_eq]
      exact t.represents.nodup _
    · exact List.nodup_nil
  obtain ⟨F, hF, hFF, hn⟩ := Forest.exists_follows_below nodes (fun p _ => hnodes p) hroot (fun c p q => ht.unique hapart t) hnodup
  have hne : ∀ x ∈ F.preorder, x ≠ doc.root := by
    rintro x hx rfl
    exact (List.nodup_cons.1 hn).1 hx
  refine ⟨F, hF.trans (treeChildren_root doc), hFF.congr fun x hx => treeChildren_of_ne (hne x hx), hn, ?_⟩
  refine Forest.size_le_of_nodup (List.nodup_cons.1 hn).2 NodeId.index (fun _ _ => NodeId.ext_index) fun x hx => ?_
  obtain ⟨p, hp⟩ := hFF.exists_parent hF hx
  obtain ⟨a, ha⟩ := hmem hp
  obtain ⟨n, hn⟩ := t.get_child ha
  exact Tree.index_lt_len hn

/-! ## The dump -/

/-- The lines of a walk with enough nodes left are those of the forest below its stack. -/
theorem linesFrom_eq {F : Forest NodeId} (hF : F.Follows (logicalChildren doc)) {remaining : Nat} (hsize : F.size ≤ remaining)
    (depth : Nat) : linesFrom doc remaining (F.roots.map fun id => (id, depth)) =
      (F.depths (levels doc) depth).preorder.flatMap (shownLines doc) := by
  rw [← Forest.roots_depths (levels doc)]
  refine (hF.depths (levels doc) depth).walk_flatMap_eq (shownLines doc) (fun n => ?_) (linesFrom_cons doc) ?_
  · cases n <;> rfl
  · rw [Forest.size_depths]
    exact hsize

/-- The dump of a document is the lines of the nodes of its logical tree in pre-order, each node once and at its depth. It is the
tree of the child lists where no other nodes have children than those that can hold some. -/
theorem html5libTree_eq {doc : Document} (h : doc.Reachable) (ht : Templates doc) (hroot : RootApart doc) :
    ∃ F : Forest NodeId, F.roots = doc.children doc.root ∧ F.Follows (logicalChildren doc) ∧ (doc.root :: F.preorder).Nodup ∧
      (ContainersOnly doc → F.Follows (listedChildren doc)) ∧ html5libTree doc = ['\n'].intercalate
        ("#document".toList :: (F.depths (levels doc) 1).preorder.flatMap (shownLines doc)) := by
  obtain ⟨kids, t⟩ := h.tree
  obtain ⟨F, hF, hFF, hnodup, hsize⟩ := ht.exists_tree hroot t
  refine ⟨F, hF, hFF, hnodup, fun honly => hFF.congr fun x hx => honly.logicalChildren_eq ?_, ?_⟩
  · rintro rfl
    exact (List.nodup_cons.1 hnodup).1 hx
  · have hlines := linesFrom_eq hFF hsize 1
    rw [hF] at hlines
    rw [html5libTree, documentLines, pushChildren, List.append_nil, hlines]

/-- A document with a template that holds a text. -/
def textInTemplate : Document :=
  let doc := (((Document.new "").create .documentFragment).2.create (.text ['a'])).2.linkLast (.fromIndex 1) (.fromIndex 2)
  let template : Element := { name := ⟨none, "", "template"⟩, attrs := [], templateContents := some (.fromIndex 1) }
  (doc.create (.element template)).2.linkLast (.fromIndex 0) (.fromIndex 3)

/-- The sample can be made. -/
theorem reachable_textInTemplate : textInTemplate.Reachable := by
  have hfragment : ((Document.new "").create .documentFragment).2.Reachable := .apply (.create _) (.new "") rfl
  have htext := hfragment.append (.text ['a']) (.fromIndex 1) (.fromIndex 2) (by decide) (by decide) rfl rfl
  exact htext.append _ _ _ (by decide) (by decide) rfl rfl

/-- The template is its only element. -/
theorem element_textInTemplate {id : NodeId} {element : Element} (h : textInTemplate.element id = some element) :
    id = .fromIndex 3 ∧ element.templateContents = some (.fromIndex 1) := by
  obtain ⟨i, hi⟩ := id
  rcases i with _ | _ | _ | _ | i
  · cases h
  · cases h
  · cases h
  · obtain rfl := Option.some.inj h
    exact ⟨rfl, rfl⟩
  · cases h

/-- The template has contents of its own. -/
theorem templates_textInTemplate : Templates textInTemplate := by
  refine ⟨fun id element contents h hcontents => ?_, fun id id' element element' contents h h' _ _ => ?_⟩
  · obtain rfl := Option.some.inj ((element_textInTemplate h).2.symm.trans hcontents)
    exact ⟨_, rfl, rfl, rfl⟩
  · rw [(element_textInTemplate h).1, (element_textInTemplate h').1]

/-- The root is no contents. -/
theorem rootApart_textInTemplate : RootApart textInTemplate := by
  intro id element h
  rw [(element_textInTemplate h).2]
  decide

/-- The text is listed below the contents. -/
theorem html5libTree_eq_textInTemplate : documentLines textInTemplate =
      ["#document", "| <template>", "|   content", "|     \"a\""].map String.toList ∧
    ∃ F : Forest NodeId, F.roots = textInTemplate.children textInTemplate.root ∧ F.Follows (logicalChildren textInTemplate) ∧
      (textInTemplate.root :: F.preorder).Nodup ∧ (ContainersOnly textInTemplate → F.Follows (listedChildren textInTemplate)) ∧
      html5libTree textInTemplate = ['\n'].intercalate
        ("#document".toList :: (F.depths (levels textInTemplate) 1).preorder.flatMap (shownLines textInTemplate)) :=
  ⟨by decide, html5libTree_eq reachable_textInTemplate templates_textInTemplate rootApart_textInTemplate⟩

/-! ## Documents that show otherwise -/

/-- A document whose root holds a text, and the text a comment. -/
def commentInText : Document :=
  let doc := ((Document.new "").create (.text ['a'])).2.linkLast (.fromIndex 0) (.fromIndex 1)
  (doc.create (.comment ['b'])).2.linkLast (.fromIndex 1) (.fromIndex 2)

/-- The sample can be made. -/
theorem reachable_commentInText : commentInText.Reachable := by
  have htext := (Document.Reachable.new "").append (.text ['a']) (.fromIndex 0) (.fromIndex 1) (by decide) (by decide) rfl rfl
  exact htext.append _ _ _ (by decide) (by decide) rfl rfl

/-- It has no templates. -/
theorem templates_commentInText : Templates commentInText := by
  have hnone : ∀ id element, commentInText.element id ≠ some element := by
    rintro ⟨i, hi⟩ element h
    rcases i with _ | _ | _ | i <;> cases h
  refine ⟨fun id element _ h => ?_, fun id _ element _ _ h => ?_⟩
  · exact absurd h (hnone id element)
  · exact absurd h (hnone id element)

/-- A document whose root, made a fragment, holds a template with the root as its contents. -/
def rootInTemplate : Document :=
  let template : Element := { name := ⟨none, "", "template"⟩, attrs := [], templateContents := some (.fromIndex 0) }
  let doc := ((Document.new "").create (.element template)).2.linkLast (.fromIndex 0) (.fromIndex 1)
  doc.modify (.fromIndex 0) fun node => { node with kind := .documentFragment }

/-- The sample can be made. -/
theorem reachable_rootInTemplate : rootInTemplate.Reachable :=
  .assign (.fromIndex 0) (fun _ => .documentFragment)
    ((Document.Reachable.new "").append _ (.fromIndex 0) (.fromIndex 1) (by decide) (by decide) rfl rfl)

/-- Its template has contents of its own. -/
theorem templates_rootInTemplate : Templates rootInTemplate := by
  have htemplate : ∀ id element, rootInTemplate.element id = some element →
      id = .fromIndex 1 ∧ element.templateContents = some (.fromIndex 0) := by
    rintro ⟨i, hi⟩ element h
    rcases i with _ | _ | i
    · cases h
    · obtain rfl := Option.some.inj h
      exact ⟨rfl, rfl⟩
    · cases h
  refine ⟨fun id element contents h hcontents => ?_, fun id id' element element' contents h h' _ _ => ?_⟩
  · obtain rfl := Option.some.inj ((htemplate id element h).2.symm.trans hcontents)
    exact ⟨_, rfl, rfl, rfl⟩
  · rw [(htemplate id element h).1, (htemplate id' element' h').1]

/-- The comment is in the tree of the child lists, and has no line in the dump; and with the root in a template there is no such
tree: the template would be below itself. -/
theorem html5libTree_ne_listedChildren :
    (commentInText.Reachable ∧ Templates commentInText ∧
      documentLines commentInText = ["#document", "| \"a\""].map String.toList ∧
      ∃ F : Forest NodeId, F.roots = commentInText.children commentInText.root ∧ F.Follows (listedChildren commentInText) ∧
        F.preorder = [.fromIndex 1, .fromIndex 2] ∧ ∀ down, documentLines commentInText ≠
          "#document".toList :: (F.depths down 1).preorder.flatMap (shownLines commentInText)) ∧
    rootInTemplate.Reachable ∧ Templates rootInTemplate ∧
      ∀ F : Forest NodeId, F.roots = rootInTemplate.children rootInTemplate.root → ¬F.Follows (listedChildren rootInTemplate) := by
  constructor
  · refine ⟨reachable_commentInText, templates_commentInText, by decide,
      .cons (.fromIndex 1) (.cons (.fromIndex 2) .nil .nil) .nil, rfl, ⟨rfl, ⟨rfl, trivial, trivial⟩, trivial⟩, rfl,
      fun down h => ?_⟩
    have hlines : (documentLines commentInText).length = 2 := by decide
    rw [h] at hlines
    cases hlines
  · refine ⟨reachable_rootInTemplate, templates_rootInTemplate, fun F hF hFF => ?_⟩
    have hroots : F.roots = [.fromIndex 1] := hF.trans rfl
    exact hFF.not_mem_self (hroots ▸ List.mem_cons_self) (by decide)

end Serialize

end ChromeLight
