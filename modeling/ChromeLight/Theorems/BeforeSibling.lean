import ChromeLight.Theorems.Sink
import ChromeLight.Theorems.Traverse

/-!
# A node that is refused in front of a sibling

`DomSink::append_before_sibling` takes the node out of the tree first and then inserts it; what the insertion is refused for is
dropped. So a refused node that had a parent is lost from the tree: the call leaves the document as it was, or puts the node in
front of the sibling, exactly if the node has no parent, or the sibling has one and is neither the node nor below it
(`appendBeforeSibling_keeps_iff`).
-/

namespace ChromeLight

open Document

namespace DomSink

variable {doc doc' : Document} {kids : NodeId → List NodeId} {sibling node : NodeId}

/-- A node is immediately in front of a sibling. -/
def InFront (doc : Document) (node sibling : NodeId) : Prop :=
  ∃ p L R, doc.children p = L ++ node :: sibling :: R

/-- The call puts the node in front of the sibling, or leaves the document as it was. -/
def KeepsRefused (doc : Document) (sibling node : NodeId) : Prop :=
  ∃ doc', appendBeforeSibling doc sibling (.appendNode node) = .some doc' ∧ (¬InFront doc' node sibling → doc' = doc)

/-- An insertion is refused and changes nothing, or puts the node in front of the sibling. -/
theorem insertBefore_cases (t : Tree doc kids) (sibling node : NodeId) :
    (doc.forest.insertRefusal doc.root sibling node ≠ none ∧
        ((doc.insertBefore sibling node).map (·.2) : Part Document) = .some doc) ∨
      (doc.forest.insertRefusal doc.root sibling node = none ∧
        ∃ doc', ((doc.insertBefore sibling node).map (·.2) : Part Document) = .some doc' ∧ InFront doc' node sibling) := by
  have houtcome := t.insertBefore sibling node
  generalize doc.insertBefore sibling node = result at houtcome
  cases houtcome with
  | refused hr => exact .inl ⟨by rw [hr]; simp, Part.map_some _ _⟩
  | @done doc' hr t' _ =>
    refine .inr ⟨hr, doc', Part.map_some _ _, ?_⟩
    obtain ⟨p, hs, -⟩ := t.insertRefusal_eq_none_iff.1 hr
    obtain ⟨L, R, hk⟩ := List.append_of_mem hs
    refine ⟨p, L, R, ?_⟩
    rw [t'.children_eq, OrderedForest.insertBefore, (OrderedForest.parent_eq_some_iff t.forest_uniqueParents).2 hs]
    simp only [LinkedForest.setKids_self, hk]
    refine LinkedForest.insertIdx_idxOf (fun hL => ?_) node
    have hnodup := t.forest_uniqueParents.nodup p
    rw [hk] at hnodup
    exact List.disjoint_of_nodup_append hnodup hL List.mem_cons_self

/-- The document after its node is taken out of the tree. -/
theorem detached (t : Tree doc kids) (h : doc.forest.Attached node) :
    Tree (doc.detach node).2 (doc.forest.remove node).kids ∧
      (doc.detach node).2.forest = doc.forest.remove node := by
  have houtcome := t.detach node
  generalize hresult : (Part.some (doc.detach node) : Part (Except DomError Unit × Document)) = result at houtcome
  obtain ⟨p, hp⟩ := h
  obtain ⟨n, hn⟩ := t.get_child (t.forest_kids ▸ hp)
  cases houtcome with
  | refused hr =>
    rw [OrderedForest.detachRefusal, if_neg (not_not.2 (known_iff.2 ⟨n, hn⟩))] at hr
    cases hr
  | done _ t' hkind =>
    rw [Part.some_injective hresult]
    exact ⟨t', OrderedForest.ext hkind t'.forest_kids⟩

/-- A node that is taken out is in no child list any more. -/
theorem not_mem_detached (t : Tree doc kids) (h : doc.forest.Attached node) (p : NodeId) :
    node ∉ (doc.detach node).2.children p := by
  intro hp
  rw [(detached t h).1.children_eq] at hp
  exact ((OrderedForest.mem_remove t.forest_uniqueParents).1 hp).2 rfl

/-- After its node is taken out, inserting it is accepted where the sibling has a parent and is not in the node's subtree. -/
theorem insertRefusal_detached (t : Tree doc kids) (h : doc.forest.Attached node) :
    (doc.forest.remove node).insertRefusal doc.root sibling node = none ↔
      doc.forest.Attached sibling ∧ ¬doc.forest.AboveOrSelf node sibling := by
  have hu := t.forest_uniqueParents
  have wf : WellFounded (Forest.Child doc.forest.kids) := t.forest_kids ▸ t.wf
  obtain ⟨t', hforest⟩ := detached t h
  have hroot : (doc.detach node).2.root = doc.root := rfl
  rw [← hforest, ← hroot, t'.insertRefusal_eq_none_iff, hforest]
  constructor
  · rintro ⟨p, hs, ha⟩
    obtain ⟨hs, hne⟩ := (OrderedForest.mem_remove hu).1 hs
    refine ⟨⟨p, hs⟩, fun habove => ha.acyclic ?_⟩
    rw [OrderedForest.aboveOrSelf_remove hu wf]
    -- the sibling is not the node, so that its parent is in the node's subtree as well
    rcases Relation.ReflTransGen.cases_head habove with rfl | ⟨q, hq, hrest⟩
    · exact absurd rfl hne
    · obtain rfl := hu.parent sibling p q hs hq
      exact hrest
  · rintro ⟨⟨p, hs⟩, hup⟩
    obtain ⟨q, hq⟩ := h
    obtain ⟨n, hn⟩ := t.get_child (t.forest_kids ▸ hq)
    have hne : sibling ≠ node := fun e => hup (e ▸ .refl)
    have hknown : (doc.forest.remove node).Known node := by
      rw [OrderedForest.Known, OrderedForest.kind_remove]
      exact known_iff.2 ⟨n, hn⟩
    have hparent : (doc.forest.remove node).Known p := by
      obtain ⟨m, hm⟩ := t.get_parent (t.forest_kids ▸ hs)
      rw [OrderedForest.Known, OrderedForest.kind_remove]
      exact known_iff.2 ⟨m, hm⟩
    refine ⟨p, (OrderedForest.mem_remove hu).2 ⟨hs, hne⟩, hparent, hknown, ?_, ?_, ?_⟩
    · intro e
      rw [e, hroot] at hq
      exact t.root q (t.forest_kids ▸ hq)
    · rw [OrderedForest.aboveOrSelf_remove hu wf]
      exact fun h => hup (.head hs h)
    · rintro ⟨q, hq⟩
      exact ((OrderedForest.mem_remove hu).1 hq).2 rfl

/-- The call keeps the document where it refuses the node exactly if the node has no parent, or the insertion is accepted. -/
theorem appendBeforeSibling_keeps_iff (doc : Document) (h : doc.Reachable) (sibling node : NodeId) :
    KeepsRefused doc sibling node ↔
      ¬doc.forest.Attached node ∨ doc.forest.Attached sibling ∧ ¬doc.forest.AboveOrSelf node sibling := by
  obtain ⟨kids, t⟩ := h.tree
  have hcall : appendBeforeSibling doc sibling (.appendNode node) =
      ((doc.detach node).2.insertBefore sibling node).map (·.2) := rfl
  unfold KeepsRefused
  rw [hcall]
  by_cases hatt : doc.forest.Attached node
  · obtain ⟨t', hforest⟩ := detached t hatt
    have hrefusal : _ ↔ doc.forest.Attached sibling ∧ ¬doc.forest.AboveOrSelf node sibling := insertRefusal_detached t hatt
    rw [← hforest] at hrefusal
    rw [or_iff_right (not_not.2 hatt)]
    rcases insertBefore_cases t' sibling node with ⟨hr, hresult⟩ | ⟨hr, doc', hresult, hfront⟩
    · refine iff_of_false ?_ fun hcond => hr (hrefusal.2 hcond)
      rintro ⟨doc', hdoc', hkeeps⟩
      obtain rfl := Part.some_injective (hresult.symm.trans hdoc')
      have hgone := not_mem_detached t hatt
      have hsame := hkeeps fun ⟨p, L, R, hk⟩ => hgone p (hk ▸ List.mem_append_right _ List.mem_cons_self)
      obtain ⟨p, hp⟩ := hatt
      exact hgone p (hsame.symm ▸ hp)
    · exact iff_of_true ⟨doc', hresult, fun hno => absurd hfront hno⟩ (hrefusal.1 hr)
  · refine iff_of_true ?_ (.inl hatt)
    rw [detach_of_free t hatt]
    rcases insertBefore_cases t sibling node with ⟨-, hresult⟩ | ⟨-, doc', hresult, hfront⟩
    · exact ⟨doc, hresult, fun _ => rfl⟩
    · exact ⟨doc', hresult, fun hno => absurd hfront hno⟩

/-- A document whose root has one child, a comment. -/
def oneComment : Document := ((Document.new "").create (.comment [])).2.linkLast (.fromIndex 0) (.fromIndex 1)

theorem reachable_oneComment : oneComment.Reachable :=
  (Document.Reachable.new "").append (.comment []) (.fromIndex 0) (.fromIndex 1) (by decide) (by decide) rfl rfl

/-- What that says of putting the comment in front of the root, which has no parent. -/
theorem appendBeforeSibling_keeps_iff_oneComment : oneComment.Reachable ∧
    (KeepsRefused oneComment (.fromIndex 0) (.fromIndex 1) ↔ ¬oneComment.forest.Attached (.fromIndex 1) ∨
      oneComment.forest.Attached (.fromIndex 0) ∧ ¬oneComment.forest.AboveOrSelf (.fromIndex 1) (.fromIndex 0)) :=
  ⟨reachable_oneComment, appendBeforeSibling_keeps_iff _ reachable_oneComment _ _⟩

/-- In front of itself the comment is refused, and lost from the tree. -/
theorem appendBeforeSibling_loses_comment : ∃ doc sibling node doc', doc.Reachable ∧
    appendBeforeSibling doc sibling (.appendNode node) = .some doc' ∧ ¬InFront doc' node sibling ∧ doc' ≠ doc := by
  obtain ⟨kids, t⟩ := reachable_oneComment.tree
  have hinsert : (oneComment.detach (.fromIndex 1)).2.insertBefore (.fromIndex 1) (.fromIndex 1) =
      .some (.error .isDocument, (oneComment.detach (.fromIndex 1)).2) := rfl
  refine ⟨oneComment, .fromIndex 1, .fromIndex 1, (oneComment.detach (.fromIndex 1)).2, reachable_oneComment, ?_, ?_, by decide⟩
  · exact congrArg (Part.map (·.2)) hinsert |>.trans (Part.map_some _ _)
  · rintro ⟨p, L, R, hk⟩
    exact not_mem_detached t ⟨.fromIndex 0, by decide⟩ p (hk ▸ List.mem_append_right _ List.mem_cons_self)

end DomSink

end ChromeLight
