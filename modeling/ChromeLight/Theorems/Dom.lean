import ChromeLight.Lemmas.Dom

/-!
# A document is an ordered forest after any sequence of operations

A run of a document is a sequence of public operations, with any ids; an operation that is refused is part of it too.
`Document.Consistent` says in terms of the link fields alone what makes them those of an ordered forest, and
`exec_consistent` that it holds after every run from a new document, which moreover always returns. `RefinesForest` says that
`appendChild`, `insertBefore` and `detach` are surgeries on one child list of the forest the document stands for, and are
refused exactly where that surgery is not defined; `exec_refinesForest` says so for every document a run reaches. What
`reparentChildren` does there, `exec_reparentChildren` says.
-/

namespace ChromeLight

open LinkedForest (Represents)
open Forest (Child)

/-- The public operations that change the tree. -/
inductive Op where
  | create (kind : NodeKind)
  | appendChild (parent child : NodeId)
  | insertBefore (sibling new : NodeId)
  | detach (id : NodeId)
  | reparentChildren (source target : NodeId)
deriving Repr

namespace Document

/-- What an operation answers and the document it leaves; undefined when it does not return. -/
def attempt (doc : Document) : Op → Part (Except DomError Unit × Document)
  | .create kind => .some (.ok (), (doc.create kind).2)
  | .appendChild parent child => doc.appendChild parent child
  | .insertBefore sibling new => doc.insertBefore sibling new
  | .detach id => .some (doc.detach id)
  | .reparentChildren source target => doc.reparentChildren source target

/-- The document an operation leaves, whether it is refused or not. -/
def apply (doc : Document) (op : Op) : Part Document := (doc.attempt op).map (·.2)

/-- One operation after the other. -/
def exec : List Op → Document → Part Document
  | [], doc => .some doc
  | op :: ops, doc => doc.apply op >>= exec ops

/-- Following `nextSibling` from `start` visits exactly the nodes of the list, in order, and then ends. -/
inductive Walk (doc : Document) : Option NodeId → List NodeId → Prop where
  | done : Walk doc none []
  | visit {c : NodeId} {n : Node} {rest : List NodeId} :
      doc.get c = some n → Walk doc n.nextSibling rest → Walk doc (some c) (c :: rest)

/-- The link fields are those of an ordered forest whose first tree is the root's. -/
structure Consistent (doc : Document) : Prop where
  /-- The walk over the children of a node visits the nodes whose parent it is, once each, and ends at the last child. -/
  children : ∀ p n, doc.get p = some n → ∃ cs, doc.Walk n.firstChild cs ∧ cs.Nodup ∧
    (∀ c, c ∈ cs ↔ ∃ m, doc.get c = some m ∧ m.parent = some p) ∧ n.lastChild = cs.getLast?
  siblings : ∀ a b, (doc.get a).bind (·.nextSibling) = some b ↔ (doc.get b).bind (·.prevSibling) = some a
  orphan : ∀ c n, doc.get c = some n → n.parent = none → n.prevSibling = none ∧ n.nextSibling = none
  parent : ∀ c n p, doc.get c = some n → n.parent = some p → ∃ m, doc.get p = some m
  root : ∃ n, doc.get doc.root = some n ∧ n.parent = none
  acyclic : ∀ c, ¬Relation.TransGen (fun x p => (doc.get x).bind (·.parent) = some p) c c

variable {doc : Document} {kids : NodeId → List NodeId}

/-- The walk from a child visits it and the children after it. -/
theorem Tree.walk (t : Tree doc kids) {p : NodeId} (L R : List NodeId) (hk : kids p = L ++ R) : doc.Walk R.head? R := by
  induction R generalizing L with
  | nil => exact .done
  | cons c R ih =>
    obtain ⟨n, hn⟩ := t.get_child (p := p) (c := c) (by simp [hk])
    have hnext : n.nextSibling = R.head? := (t.represents.place p L c R n.links hk (links_eq_some hn)).2
    exact .visit hn (hnext ▸ ih (L ++ [c]) (by simp [hk]))

/-- Where the neighbours of a child are, from either side. -/
theorem Tree.siblings (t : Tree doc kids) (a b : NodeId) :
    (doc.get a).bind (·.nextSibling) = some b ↔ (doc.get b).bind (·.prevSibling) = some a := by
  have place : ∀ {c : NodeId} {n : Node}, doc.get c = some n → (n.prevSibling = none ∧ n.nextSibling = none) ∨
      ∃ p L R, kids p = L ++ c :: R ∧ n.prevSibling = L.getLast? ∧ n.nextSibling = R.head? := by
    intro c n hn
    cases hp : n.parent with
    | none => exact Or.inl (t.represents.orphan c n.links (links_eq_some hn) hp)
    | some p =>
      obtain ⟨L, R, hk⟩ := List.append_of_mem ((t.parent_iff hn).1 hp)
      exact Or.inr ⟨p, L, R, hk, t.represents.place p L c R n.links hk (links_eq_some hn)⟩
  constructor
  · intro h
    obtain ⟨n, hn, hnext⟩ := Option.bind_eq_some_iff.1 h
    rcases place hn with ⟨-, hnone⟩ | ⟨p, L, R, hk, -, hR⟩
    · rw [hnone] at hnext; cases hnext
    · obtain ⟨R', rfl⟩ : ∃ R', R = b :: R' := by
        rw [hR] at hnext
        exact List.head?_eq_some_iff.1 hnext
      obtain ⟨m, hm⟩ := t.get_child (p := p) (c := b) (by simp [hk])
      have hprev := (t.represents.place p (L ++ [a]) b R' m.links (by simp [hk]) (links_eq_some hm)).1
      rw [hm, Option.bind_some]
      exact hprev.trans (by simp)
  · intro h
    obtain ⟨n, hn, hprev⟩ := Option.bind_eq_some_iff.1 h
    rcases place hn with ⟨hnone, -⟩ | ⟨p, L, R, hk, hL, -⟩
    · rw [hnone] at hprev; cases hprev
    · obtain ⟨L', rfl⟩ : ∃ L', L = L' ++ [a] := by
        rw [hL] at hprev
        exact List.getLast?_eq_some_iff.1 hprev
      obtain ⟨m, hm⟩ := t.get_child (p := p) (c := a) (by simp [hk])
      have hnext := (t.represents.place p L' a (b :: R) m.links (by simp [hk]) (links_eq_some hm)).2
      rw [hm, Option.bind_some]
      exact hnext

theorem Tree.consistent (t : Tree doc kids) : doc.Consistent where
  children p n hn := by
    have hfirst : n.firstChild = (kids p).head? := t.represents.first p n.links (links_eq_some hn)
    refine ⟨kids p, hfirst ▸ t.walk [] (kids p) rfl, t.represents.nodup p, fun c => ?_,
      t.represents.last p n.links (links_eq_some hn)⟩
    rw [← t.bind_parent c p, Option.bind_eq_some_iff]
  siblings := t.siblings
  orphan c n hn ho := t.represents.orphan c n.links (links_eq_some hn) ho
  parent c n p hn hp := t.get_parent ((t.parent_iff hn).1 hp)
  root := by
    obtain ⟨n, hn⟩ := t.get_root
    exact ⟨n, hn, t.root_orphan hn⟩
  acyclic c h := t.not_transGen_self c (Relation.TransGen.mono (fun x p hp => (t.bind_parent x p).1 hp) _ _ h)

/-- Every operation returns and keeps the invariant. -/
theorem Tree.apply (t : Tree doc kids) (op : Op) : ∃ doc' kids', doc.apply op = .some doc' ∧ Tree doc' kids' := by
  cases op with
  | create kind => exact ⟨_, kids, rfl, t.create kind⟩
  | appendChild parent child =>
    obtain ⟨r, doc', kids', h, t'⟩ := (t.appendChild parent child).tree t
    exact ⟨doc', kids', by rw [Document.apply, attempt, h]; rfl, t'⟩
  | insertBefore sibling new =>
    obtain ⟨r, doc', kids', h, t'⟩ := (t.insertBefore sibling new).tree t
    exact ⟨doc', kids', by rw [Document.apply, attempt, h]; rfl, t'⟩
  | detach id =>
    obtain ⟨r, doc', kids', h, t'⟩ := (t.detach id).tree t
    exact ⟨doc', kids', by rw [Document.apply, attempt, h]; rfl, t'⟩
  | reparentChildren source target =>
    obtain ⟨r, doc', kids', h, t'⟩ := (t.reparentChildren source target).tree t
    exact ⟨doc', kids', by rw [Document.apply, attempt, h]; rfl, t'⟩

/-- Every run returns and keeps the invariant. -/
theorem Tree.exec (t : Tree doc kids) (ops : List Op) :
    ∃ doc' kids', Document.exec ops doc = .some doc' ∧ Tree doc' kids' := by
  induction ops generalizing doc kids with
  | nil => exact ⟨doc, kids, rfl, t⟩
  | cons op ops ih =>
    obtain ⟨doc', kids', h, t'⟩ := t.apply op
    obtain ⟨doc'', kids'', h', t''⟩ := ih t'
    exact ⟨doc'', kids'', by rw [Document.exec, h, Part.bind_eq_bind, Part.bind_some]; exact h', t''⟩

/-- After every run from a new document the link fields are those of an ordered forest. -/
theorem exec_consistent (baseUrl : String) (ops : List Op) :
    ∃ doc, exec ops (Document.new baseUrl) = .some doc ∧ doc.Consistent := by
  obtain ⟨doc, kids, h, t⟩ := (tree_new baseUrl).exec ops
  exact ⟨doc, h, t.consistent⟩

/-! ## What the operations do to the forest -/

/-- `checkAttach` without its shortcut: it walks the ancestors also for a child without children. -/
def checkAttachWalk (doc : Document) (parent child : NodeId) : Part (Except DomError Unit) :=
  if (doc.get parent).isNone then .some (.error (.noSuchNode parent))
  else match doc.get child with
    | none => .some (.error (.noSuchNode child))
    | some childNode =>
      if child = doc.root then .some (.error .isDocument)
      else do
        if ← doc.isAncestorOrSelf child parent then .some (.error (.cycle child parent))
        else if childNode.parent.isSome then .some (.error (.notDetached child))
        else .some (.ok ())

/-- The operations that move one node are those of the forest the document stands for. -/
structure RefinesForest (doc : Document) : Prop where
  append : ∀ p c, doc.Carries (doc.forest.attachRefusal doc.root p c) (doc.forest.append p c) (doc.appendChild p c)
  insert : ∀ s n, doc.Carries (doc.forest.insertRefusal doc.root s n) (doc.forest.insertBefore s n) (doc.insertBefore s n)
  remove : ∀ id, doc.Carries (doc.forest.detachRefusal id) (doc.forest.remove id) (.some (doc.detach id))
  /-- The conditions under which the first two are carried out. -/
  appended : ∀ p c, (∃ doc', doc.appendChild p c = .some (.ok (), doc')) ↔ doc.forest.Attachable doc.root p c
  inserted : ∀ s n, (∃ doc', doc.insertBefore s n = .some (.ok (), doc')) ↔
    ∃ p, s ∈ doc.forest.kids p ∧ doc.forest.Attachable doc.root p n
  /-- The subtree that moves stays as it is. -/
  moved : ∀ id doc', (∃ p, doc.appendChild p id = .some (.ok (), doc')) ∨ (∃ s, doc.insertBefore s id = .some (.ok (), doc')) ∨
    doc.detach id = (.ok (), doc') → ∀ x, doc.forest.AboveOrSelf id x → doc'.forest.kids x = doc.forest.kids x
  shortcut : ∀ p c, doc.checkAttach p c = doc.checkAttachWalk p c

theorem Carries.ok_iff {refusal : Option DomError} {F : OrderedForest} {result : Part (Except DomError Unit × Document)}
    (h : doc.Carries refusal F result) : (∃ doc', result = .some (.ok (), doc')) ↔ refusal = none := by
  cases h with
  | refused h => rw [h]; exact ⟨fun ⟨_, h⟩ => (nomatch (Prod.mk.inj (Part.some_injective h)).1), nofun⟩
  | done h _ => exact ⟨fun _ => h, fun _ => ⟨_, rfl⟩⟩

theorem Carries.forest_eq {refusal : Option DomError} {F : OrderedForest} {result : Part (Except DomError Unit × Document)}
    (h : doc.Carries refusal F result) {doc' : Document} (hr : result = .some (.ok (), doc')) :
    refusal = none ∧ doc'.forest = F := by
  cases h with
  | refused h => cases (Prod.mk.inj (Part.some_injective hr)).1
  | done h hf => exact ⟨h, (Prod.mk.inj (Part.some_injective hr)).2 ▸ hf⟩

/-- The shortcut accepts exactly what the walk accepts. -/
theorem Tree.checkAttach_eq_walk (t : Tree doc kids) (p c : NodeId) : doc.checkAttach p c = doc.checkAttachWalk p c := by
  unfold Document.checkAttach checkAttachWalk
  cases hc : doc.get c with
  | none => rfl
  | some n =>
    -- both checks for a cycle answer whether the child is above the parent
    obtain ⟨b, hb, hiff⟩ := t.makesCycle p hc
    obtain ⟨b', hb', hiff'⟩ := t.isAncestorOrSelf c p
    have hcheck := hb.trans ((congrArg Part.some (Bool.eq_iff_iff.2 (hiff.trans hiff'.symm))).trans hb'.symm)
    simp only [hcheck]

theorem Tree.refinesForest (t : Tree doc kids) : doc.RefinesForest where
  append p c := (t.appendChild p c).carries
  insert s n := (t.insertBefore s n).carries
  remove id := (t.detach id).carries
  appended p c := (t.appendChild p c).carries.ok_iff.trans OrderedForest.attachRefusal_eq_none_iff
  inserted s n := (t.insertBefore s n).carries.ok_iff.trans t.insertRefusal_eq_none_iff
  moved id doc' h x hx := by
    rcases h with ⟨p, h⟩ | ⟨s, h⟩ | h
    · obtain ⟨hr, hf⟩ := (t.appendChild p id).carries.forest_eq h
      rw [hf]
      exact OrderedForest.append_below (OrderedForest.attachRefusal_eq_none_iff.1 hr) hx
    · obtain ⟨hr, hf⟩ := (t.insertBefore s id).carries.forest_eq h
      rw [hf]
      exact OrderedForest.insertBefore_below t.forest_uniqueParents (t.insertRefusal_eq_none_iff.1 hr) hx
    · obtain ⟨-, hf⟩ := (t.detach id).carries.forest_eq (congrArg Part.some h)
      rw [hf]
      exact OrderedForest.remove_below t.forest_uniqueParents (t.forest_kids ▸ t.wf) hx
  shortcut := t.checkAttach_eq_walk

/-- In every document a run reaches, the operations that move one node are those of the forest the document stands for. -/
theorem exec_refinesForest (baseUrl : String) (ops : List Op) :
    ∃ doc, exec ops (Document.new baseUrl) = .some doc ∧ doc.RefinesForest := by
  obtain ⟨doc, kids, h, t⟩ := (tree_new baseUrl).exec ops
  exact ⟨doc, h, t.refinesForest⟩

/-! ## Moving all children of a node -/

/-- When the children of a node can move to another: both are known and differ, and the other is not in the node's subtree. -/
structure Reparentable (doc : Document) (source target : NodeId) : Prop where
  knownSource : doc.forest.Known source
  knownTarget : doc.forest.Known target
  distinct : source ≠ target
  outside : ¬doc.forest.AboveOrSelf source target

/-- All children of `source`, and nothing else, have moved behind those of `target`. -/
structure Reparented (doc : Document) (source target : NodeId) (doc' : Document) : Prop where
  appended : doc'.children target = doc.children target ++ doc.children source
  emptied : doc'.children source = []
  others : ∀ q, q ≠ source → q ≠ target → doc'.children q = doc.children q
  parents : ∀ c ∈ doc.children source, (doc'.get c).bind (·.parent) = some target
  kinds : doc'.forest.kind = doc.forest.kind

theorem Tree.reparented (t : Tree doc kids) {source target : NodeId} (h : doc.Reparentable source target) :
    ∃ doc', doc.reparentChildren source target = .some (.ok (), doc') ∧ doc.Reparented source target doc' := by
  have houtcome := t.reparentChildren source target
  have hrefusal : doc.forest.reparentRefusal source target = none := by
    rw [OrderedForest.reparentRefusal, if_neg (not_not.2 h.knownSource), if_neg (not_not.2 h.knownTarget),
      if_neg h.distinct, if_neg h.outside]
  generalize hresult : doc.reparentChildren source target = result at houtcome
  cases houtcome with
  | refused hr => rw [hrefusal] at hr; cases hr
  | @done doc' _ t' hkind =>
    rw [OrderedForest.reparent, if_neg h.distinct] at t' hkind
    dsimp only at t'
    refine ⟨doc', rfl, ?_, ?_, ?_, ?_, hkind⟩
    · rw [t'.children_eq, LinkedForest.setKids_self]
      rfl
    · rw [t'.children_eq, LinkedForest.setKids_ne _ _ h.distinct, LinkedForest.setKids_self]
    · intro q hsource htarget
      rw [t'.children_eq, LinkedForest.setKids_ne _ _ htarget, LinkedForest.setKids_ne _ _ hsource]
      rfl
    · intro c hc
      rw [t'.bind_parent, LinkedForest.setKids_self]
      exact List.mem_append_right _ hc

theorem Tree.not_reparented (t : Tree doc kids) {source target : NodeId} (h : ¬doc.Reparentable source target) :
    ∃ r, doc.reparentChildren source target = .some (r, doc) := by
  have houtcome := t.reparentChildren source target
  by_cases hsame : source = target
  · cases hs : doc.get source with
    | none => exact ⟨.error (.noSuchNode source), by simp [Document.reparentChildren, hs]⟩
    | some n => exact ⟨.ok (), by simp [Document.reparentChildren, ← hsame, hs]⟩
  · have hrefusal : doc.forest.reparentRefusal source target ≠ none := by
      intro hnone
      unfold OrderedForest.reparentRefusal at hnone
      split_ifs at hnone with hsource htarget habove
      exact h ⟨hsource, htarget, hsame, habove⟩
    generalize hresult : doc.reparentChildren source target = result at houtcome
    cases houtcome with
    | refused => exact ⟨_, rfl⟩
    | done hr => exact absurd hr hrefusal

/-- In every document a run reaches, moving the children of a node returns. It moves all of them where they can move, and
leaves the document as it is everywhere else. -/
theorem exec_reparentChildren (baseUrl : String) (ops : List Op) :
    ∃ doc, exec ops (Document.new baseUrl) = .some doc ∧ ∀ source target,
      (doc.Reparentable source target →
        ∃ doc', doc.reparentChildren source target = .some (.ok (), doc') ∧ doc.Reparented source target doc') ∧
      (¬doc.Reparentable source target → ∃ r, doc.reparentChildren source target = .some (r, doc)) := by
  obtain ⟨doc, kids, h, t⟩ := (tree_new baseUrl).exec ops
  exact ⟨doc, h, fun source target => ⟨t.reparented, t.not_reparented⟩⟩

end Document

end ChromeLight
