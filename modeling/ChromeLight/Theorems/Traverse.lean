import ChromeLight.Theorems.Dom
import ChromeLight.Lemmas.Sink

/-!
# The iterators of a document

A document is reachable if the public operations lead to it from a new one: those that change the tree, a new kind for a node,
and a new quirks mode. On a reachable document `children`, `descendants` and `ancestors` yield what they should: their caps
never cut a walk short (`traversal_exact`). On any arena, whatever its links are, they yield as many nodes as it holds at most.
-/

namespace ChromeLight

open Forest (Child Follows)

namespace Document

/-- The documents that public operations lead to. -/
inductive Reachable : Document → Prop where
  | new (baseUrl : String) : Reachable (Document.new baseUrl)
  | apply {doc doc' : Document} (op : Op) (h : Reachable doc) (hop : doc.apply op = .some doc') : Reachable doc'
  | assign {doc : Document} (id : NodeId) (f : NodeKind → NodeKind) (h : Reachable doc) :
      Reachable (doc.modify id fun node => { node with kind := f node.kind })
  | setQuirksMode {doc : Document} (mode : QuirksMode) (h : Reachable doc) : Reachable { doc with quirks := mode }

variable {doc : Document} {kids : NodeId → List NodeId}

/-- A reachable document is the tree its links say. -/
theorem Reachable.tree (h : doc.Reachable) : ∃ kids, Tree doc kids := by
  induction h with
  | new baseUrl => exact ⟨_, tree_new baseUrl⟩
  | apply op _ hop ih =>
    obtain ⟨kids, t⟩ := ih
    obtain ⟨doc'', kids', hop', t'⟩ := t.apply op
    obtain rfl := Part.some_injective (hop.symm.trans hop')
    exact ⟨kids', t'⟩
  | assign id f _ ih =>
    obtain ⟨kids, t⟩ := ih
    exact ⟨kids, t.modify id fun _ => rfl⟩
  | setQuirksMode mode _ ih =>
    obtain ⟨kids, t⟩ := ih
    exact ⟨kids, t.represents, t.wf, t.root, t.nonempty, t.capped⟩

/-- A document with one more node, appended to a node it had, is reachable. -/
theorem Reachable.append (h : doc.Reachable) (kind : NodeKind) (parent child : NodeId) (hne : child ≠ parent)
    (hroot : child ≠ .fromIndex 0) (hparent : ((doc.create kind).2.get parent).isSome)
    (hchild : (doc.create kind).2.get child = some { kind }) : ((doc.create kind).2.linkLast parent child).Reachable := by
  have hcheck : (doc.create kind).2.checkAttach parent child = .some (.ok ()) :=
    checkAttach_of_leaf hparent hchild hroot hne rfl rfl
  refine .apply (.appendChild parent child) (.apply (.create kind) h rfl) ?_
  simp [Document.apply, attempt, appendChild, hcheck]

/-! ## Descendants -/

/-- The tree below a node, its nodes distinct and known. -/
theorem Tree.exists_subtree (t : Tree doc kids) (id : NodeId) :
    ∃ F : Forest NodeId, F.roots = kids id ∧ F.Follows kids ∧ F.preorder.Nodup ∧ id ∉ F.preorder ∧ F.size ≤ doc.len := by
  obtain ⟨G, hG, hGF⟩ := Forest.exists_follows t.wf [id]
  obtain ⟨F, rfl⟩ := Forest.eq_cons_of_roots hG
  have hnodup := hGF.nodup_singleton t.represents.uniqueParents t.wf hG
  obtain ⟨hF, hFF, -⟩ := hGF
  rw [Forest.preorder, Forest.preorder, List.append_nil, List.nodup_cons] at hnodup
  refine ⟨F, hF, hFF, hnodup.2, hnodup.1, Forest.size_le_of_nodup hnodup.2 NodeId.index (fun _ _ => NodeId.ext_index) ?_⟩
  intro x hx
  obtain ⟨p, hp⟩ := hFF.exists_parent hF hx
  obtain ⟨n, hn⟩ := t.get_child hp
  exact Tree.index_lt_len hn

theorem Tree.descendants_eq (t : Tree doc kids) {id : NodeId} {F : Forest NodeId} (hF : F.roots = kids id)
    (hFF : F.Follows kids) : doc.descendants id = F.preorder := by
  obtain ⟨G, hG, hGF, -, -, hsize⟩ := t.exists_subtree id
  obtain rfl := hFF.unique hGF (hF.trans hG.symm)
  rw [descendants, t.children_eq, ← hF]
  refine hFF.walk_eq (fun n => ?_) (fun n a stack => ?_) hsize
  · cases n <;> rfl
  · rw [descendantsFrom, t.children_eq]

/-! ## Ancestors -/

/-- Following `parent` from `start` visits exactly the nodes of the list, in order, and then ends. -/
inductive Climb (doc : Document) : Option NodeId → List NodeId → Prop where
  | done : Climb doc none []
  | visit {p : NodeId} {n : Node} {rest : List NodeId} :
      doc.get p = some n → Climb doc n.parent rest → Climb doc (some p) (p :: rest)

/-- Everything on the way up from a child is above it. -/
theorem Tree.climb_above (t : Tree doc kids) {x : NodeId} {n : Node} {rest : List NodeId} (hx : doc.get x = some n)
    (h : doc.Climb n.parent rest) : ∀ a ∈ rest, Relation.TransGen (Child kids) x a := by
  induction rest generalizing x n with
  | nil => exact fun a ha => absurd ha List.not_mem_nil
  | cons p rest ih =>
    rcases hparent : n.parent with _ | q
    · rw [hparent] at h
      cases h
    rw [hparent] at h
    cases h with
    | visit hp hrest =>
      have hstep : Child kids x p := (t.parent_iff hx).1 hparent
      intro a ha
      rcases List.mem_cons.1 ha with rfl | ha
      · exact .single hstep
      · exact .head hstep (ih hp hrest a ha)

theorem Tree.climb_nodup (t : Tree doc kids) {start : Option NodeId} {path : List NodeId} (h : doc.Climb start path) :
    path.Nodup := by
  induction h with
  | done => exact List.nodup_nil
  | visit hp hrest ih =>
    refine List.nodup_cons.2 ⟨fun hmem => ?_, ih⟩
    exact t.not_transGen_self _ (t.climb_above hp hrest _ hmem)

theorem Climb.known {start : Option NodeId} {path : List NodeId} (h : doc.Climb start path) :
    ∀ a ∈ path, ∃ n, doc.get a = some n := by
  induction h with
  | done => exact fun a ha => absurd ha List.not_mem_nil
  | visit hp _ ih =>
    intro a ha
    rcases List.mem_cons.1 ha with rfl | ha
    · exact ⟨_, hp⟩
    · exact ih a ha

/-- The way up from a node ends. -/
theorem Tree.exists_climb (t : Tree doc kids) {x : NodeId} {n : Node} (hx : doc.get x = some n) :
    ∃ path, doc.Climb (some x) path := by
  induction x using t.wf_up.induction generalizing n with
  | _ x ih =>
    cases hparent : n.parent with
    | none => exact ⟨[x], .visit hx (hparent ▸ .done)⟩
    | some p =>
      have hchild := (t.parent_iff hx).1 hparent
      obtain ⟨m, hm⟩ := t.get_parent hchild
      obtain ⟨path, hpath⟩ := ih p hchild hm
      exact ⟨x :: path, .visit hx (hparent ▸ hpath)⟩

/-- The walk up yields the way up, if its cap allows for as many nodes. -/
theorem Climb.ancestorsFrom_eq {start : Option NodeId} {path : List NodeId} (h : doc.Climb start path) {remaining : Nat}
    (hlen : path.length ≤ remaining) : doc.ancestorsFrom remaining start = path := by
  induction h generalizing remaining with
  | done => cases remaining <;> rfl
  | visit hp _ ih =>
    cases remaining with
    | zero => cases hlen
    | succ remaining =>
      rw [ancestorsFrom, hp, Option.bind_some]
      exact congrArg _ (ih (Nat.le_of_succ_le_succ hlen))

theorem Tree.climb_ancestors (t : Tree doc kids) (id : NodeId) :
    doc.Climb ((doc.get id).bind (·.parent)) (doc.ancestors id) := by
  have hpath : ∃ path, doc.Climb ((doc.get id).bind (·.parent)) path := by
    cases hid : doc.get id with
    | none => exact ⟨[], .done⟩
    | some n =>
      obtain ⟨path, hpath⟩ := t.exists_climb hid
      cases hpath with
      | visit hn hrest =>
        obtain rfl := Option.some.inj (hid.symm.trans hn)
        exact ⟨_, hrest⟩
  obtain ⟨path, hpath⟩ := hpath
  have hlen : path.length ≤ doc.len := by
    refine Forest.length_le_of_nodup (t.climb_nodup hpath) NodeId.index (fun _ _ => NodeId.ext_index) fun a ha => ?_
    obtain ⟨n, hn⟩ := hpath.known a ha
    exact Tree.index_lt_len hn
  rw [ancestors, hpath.ancestorsFrom_eq hlen]
  exact hpath

/-! ## The iterators -/

theorem length_siblingsFrom (doc : Document) (remaining : Nat) (start : Option NodeId) :
    (doc.siblingsFrom remaining start).length ≤ remaining := by
  induction remaining generalizing start with
  | zero => exact Nat.le_refl _
  | succ remaining ih =>
    cases start with
    | none => exact Nat.zero_le _
    | some current => exact Nat.succ_le_succ (ih _)

theorem length_descendantsFrom (doc : Document) (remaining : Nat) (stack : List NodeId) :
    (doc.descendantsFrom remaining stack).length ≤ remaining := by
  induction remaining generalizing stack with
  | zero => exact Nat.le_refl _
  | succ remaining ih =>
    cases stack with
    | nil => exact Nat.zero_le _
    | cons current stack => exact Nat.succ_le_succ (ih _)

theorem length_ancestorsFrom (doc : Document) (remaining : Nat) (start : Option NodeId) :
    (doc.ancestorsFrom remaining start).length ≤ remaining := by
  induction remaining generalizing start with
  | zero => exact Nat.le_refl _
  | succ remaining ih =>
    cases start with
    | none => exact Nat.zero_le _
    | some current => exact Nat.succ_le_succ (ih _)

/-- What the iterators yield for a node of a document. -/
structure Traversed (doc : Document) (id : NodeId) : Prop where
  /-- The children are the nodes whose parent the node is, as the sibling links order them, up to the end of these. -/
  children : doc.Walk ((doc.get id).bind (·.firstChild)) (doc.children id) ∧ (doc.children id).Nodup ∧
    ∀ c, c ∈ doc.children id ↔ (doc.get c).bind (·.parent) = some id
  /-- The descendants are the subtree in pre-order, without the node itself, and each of them once. -/
  descendants : ∃ F : Forest NodeId, F.roots = doc.children id ∧ F.Follows doc.children ∧ doc.descendants id = F.preorder ∧
    (id :: F.preorder).Nodup
  /-- The ancestors are the way from the parent to the topmost one. -/
  ancestors : doc.Climb ((doc.get id).bind (·.parent)) (doc.ancestors id)

theorem Tree.traversed (t : Tree doc kids) (id : NodeId) : doc.Traversed id := by
  have hkids : doc.children = kids := t.forest_kids
  refine ⟨⟨?_, ?_, ?_⟩, ?_, t.climb_ancestors id⟩
  · rw [hkids]
    cases hid : doc.get id with
    | none =>
      rw [t.represents.absent id (links_eq_none hid)]
      exact .done
    | some n =>
      have hfirst : n.firstChild = (kids id).head? := t.represents.first id n.links (links_eq_some hid)
      rw [Option.bind_some, hfirst]
      exact t.walk [] (kids id) rfl
  · rw [hkids]
    exact t.represents.nodup id
  · intro c
    rw [hkids, t.bind_parent]
  · obtain ⟨F, hF, hFF, hnodup, hid, -⟩ := t.exists_subtree id
    rw [hkids]
    exact ⟨F, hF, hFF, t.descendants_eq hF hFF, List.nodup_cons.2 ⟨hid, hnodup⟩⟩

/-- Whatever the links of an arena are, an iterator ends after as many nodes as the arena holds at most. -/
structure Bounded (doc : Document) (id : NodeId) : Prop where
  children : (doc.children id).length ≤ doc.len
  descendants : (doc.descendants id).length ≤ doc.len
  ancestors : (doc.ancestors id).length ≤ doc.len

/-- On a reachable document the iterators yield the tree, and on any arena they end. -/
theorem traversal_exact :
    (∀ doc : Document, doc.Reachable → ∀ id, doc.Traversed id) ∧ ∀ (doc : Document) (id : NodeId), doc.Bounded id := by
  refine ⟨fun doc h id => ?_, fun doc id => ?_⟩
  · obtain ⟨kids, t⟩ := h.tree
    exact t.traversed id
  · exact ⟨length_siblingsFrom doc _ _, length_descendantsFrom doc _ _, length_ancestorsFrom doc _ _⟩

end Document

end ChromeLight
