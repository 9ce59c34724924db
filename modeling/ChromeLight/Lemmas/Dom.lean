import ChromeLight.OrderedForest
import Mathlib.Data.Finite.Defs

/-!
# The links of a document

`Document.links` forgets everything but the five links of each node. On it the private link surgeries of the arena are those
of a linked forest, so each of them changes one child list (`LinkedForest.Represents.unlink`, `.link`). `Document.Tree doc
kids` is the invariant of a document: its links are those of the forest with child lists `kids`, in which no node is below
itself and the root is below nothing.

Every operation keeps the invariant, and returns: the walks over ancestors and over the children that move are bounded by
the forest.
-/

namespace ChromeLight

open LinkedForest (Links Heap Represents setKids)
open Forest (Child)

/-- Ids at one position are equal. -/
theorem NodeId.ext_index {a b : NodeId} (h : a.index = b.index) : a = b := by
  cases a; cases b
  simpa using h

/-- Below the limit the id of a position leads back to it. -/
theorem NodeId.index_fromIndex {i : Nat} (h : i ≤ u32Max) : (NodeId.fromIndex i).index = i := by
  simp [NodeId.fromIndex, h]

instance : Finite NodeId :=
  Finite.of_injective (fun id : NodeId => (⟨id.index, Nat.lt_succ_of_le id.isU32⟩ : Fin (u32Max + 1)))
    (fun _ _ h => NodeId.ext_index (by simpa using h))

/-- The links of a node. -/
def Node.links (n : Node) : Links NodeId :=
  { parent := n.parent, firstChild := n.firstChild, lastChild := n.lastChild, prev := n.prevSibling, next := n.nextSibling }

namespace Document

variable {doc : Document} {kids : NodeId → List NodeId}

/-- The links of all nodes, as a heap. -/
def links (doc : Document) : Heap NodeId := fun id => (doc.get id).map Node.links

/-- The links of a node that is there. -/
theorem links_eq_some {id : NodeId} {n : Node} (h : doc.get id = some n) : doc.links id = some n.links := by
  rw [links, h, Option.map_some]

/-- Where there is no node, there are no links. -/
theorem links_eq_none {id : NodeId} (h : doc.get id = none) : doc.links id = none := by
  rw [links, h, Option.map_none]

/-! ## The link surgeries -/

/-- Changing a node changes no other. -/
theorem get_modify (doc : Document) (id : NodeId) (f : Node → Node) (x : NodeId) :
    (doc.modify id f).get x = if x = id then (doc.get x).map f else doc.get x := by
  have hx : id.index = x.index ↔ x = id := ⟨fun h => NodeId.ext_index h.symm, fun h => h ▸ rfl⟩
  simp only [get, modify, List.getElem?_modify, hx]
  split <;> simp

/-- Changing a node makes none. -/
@[simp] theorem len_modify (doc : Document) (id : NodeId) (f : Node → Node) : (doc.modify id f).len = doc.len := by
  simp [len, modify]

/-- A change of a node that is a change of its links changes the links of the document there. -/
theorem links_modify (doc : Document) (id : NodeId) {f : Node → Node} {g : Links NodeId → Links NodeId}
    (h : ∀ n, (f n).links = g n.links) : (doc.modify id f).links = doc.links.modify id g := by
  funext x
  rw [links, get_modify, LinkedForest.Heap.modify_apply]
  unfold links
  cases hx : doc.get x with
  | none => simp
  | some n =>
    by_cases hi : x = id
    · simp [hi, h]
    · simp [hi]

/-- Unlinking makes no node. -/
@[simp] theorem len_unlink (doc : Document) (id : NodeId) : (doc.unlink id).len = doc.len := by
  unfold unlink
  cases doc.get id with
  | none => rfl
  | some node =>
    cases hp : node.parent with
    | none => simp only [hp]
    | some parent =>
      simp only [hp]
      cases node.prevSibling <;> cases node.nextSibling <;> simp

/-- Linking at the end makes no node. -/
@[simp] theorem len_linkLast (doc : Document) (parent child : NodeId) : (doc.linkLast parent child).len = doc.len := by
  simp only [linkLast]
  split <;> simp

/-- Linking before a sibling makes no node. -/
@[simp] theorem len_linkBefore (doc : Document) (parent sibling new : NodeId) :
    (doc.linkBefore parent sibling new).len = doc.len := by
  simp only [linkBefore]
  split <;> simp

/-- Unlinking a child is the surgery on the heap. -/
theorem links_unlink {id parent : NodeId} {n : Node} (h : doc.get id = some n) (hp : n.parent = some parent) :
    (doc.unlink id).links = LinkedForest.unlink doc.links parent n.prevSibling n.nextSibling id := by
  simp only [unlink, h, hp, LinkedForest.unlink]
  rw [links_modify _ _ (g := fun l => { l with parent := none, prev := none, next := none }) (fun _ => rfl)]
  congr 1
  -- in each case two fields are assigned, one on each side of the node
  have twice : ∀ (a b : NodeId) (f f' : Node → Node) (g g' : Links NodeId → Links NodeId), (∀ m, (f m).links = g m.links) →
      (∀ m, (f' m).links = g' m.links) → ((doc.modify a f).modify b f').links = (doc.links.modify a g).modify b g' := by
    intro a b f f' g g' hf hf'
    rw [links_modify _ _ hf', links_modify _ _ hf]
  cases n.prevSibling <;> cases n.nextSibling <;> exact twice _ _ _ _ _ _ (fun _ => rfl) (fun _ => rfl)

/-- Unlinking a node without a parent does nothing. -/
theorem unlink_of_orphan {id : NodeId} {n : Node} (h : doc.get id = some n) (hp : n.parent = none) :
    doc.unlink id = doc := by
  simp only [unlink, h, hp]

/-- Linking at the end is the surgery on the heap. -/
theorem links_linkLast (doc : Document) (parent child : NodeId) :
    (doc.linkLast parent child).links
      = LinkedForest.link doc.links parent ((doc.get parent).bind (·.lastChild)) none child := by
  simp only [linkLast, LinkedForest.link, Heap.setBefore]
  rw [links_modify _ _ (g := fun l => { l with lastChild := some child }) (fun _ => rfl)]
  congr 1
  cases (doc.get parent).bind (·.lastChild) with
  | none =>
    simp only [Heap.setAfter]
    rw [links_modify _ _ (g := fun l => { l with firstChild := some child }) (fun _ => rfl)]
    congr 1
    exact links_modify _ _ (fun _ => rfl)
  | some a =>
    simp only [Heap.setAfter]
    rw [links_modify _ _ (g := fun l => { l with next := some child }) (fun _ => rfl)]
    congr 1
    exact links_modify _ _ (fun _ => rfl)

/-- Linking before a sibling is the surgery on the heap. -/
theorem links_linkBefore (doc : Document) (parent sibling new : NodeId) :
    (doc.linkBefore parent sibling new).links
      = LinkedForest.link doc.links parent ((doc.get sibling).bind (·.prevSibling)) (some sibling) new := by
  simp only [linkBefore, LinkedForest.link, Heap.setBefore]
  rw [links_modify _ _ (g := fun l => { l with prev := some new }) (fun _ => rfl)]
  congr 1
  cases (doc.get sibling).bind (·.prevSibling) with
  | none =>
    simp only [Heap.setAfter]
    rw [links_modify _ _ (g := fun l => { l with firstChild := some new }) (fun _ => rfl)]
    congr 1
    exact links_modify _ _ (fun _ => rfl)
  | some a =>
    simp only [Heap.setAfter]
    rw [links_modify _ _ (g := fun l => { l with next := some new }) (fun _ => rfl)]
    congr 1
    exact links_modify _ _ (fun _ => rfl)

/-! ## New nodes -/

/-- At the cap no node is created. -/
theorem create_full (h : ¬doc.len < u32Max) (kind : NodeKind) : (doc.create kind).2 = doc := by
  rw [create, if_pos (Nat.le_of_not_lt h)]

/-- The id of a new node names none before. -/
theorem get_create_id (h : doc.len ≤ u32Max) (kind : NodeKind) : doc.get (doc.create kind).1 = none := by
  have hindex : doc.len ≤ (doc.create kind).1.index := by
    unfold Document.create
    split
    · exact Nat.le_min.2 ⟨h.trans (by decide), h⟩
    · exact Nat.le_min.2 ⟨Nat.le_refl _, h⟩
  exact List.getElem?_eq_none hindex

/-- While there is room, a new node is one more. -/
theorem len_create (h : doc.len < u32Max) (kind : NodeKind) : (doc.create kind).2.len = doc.len + 1 := by
  rw [create, if_neg (Nat.not_le_of_lt h), len, List.length_append, List.length_singleton, len]

/-- The new node has the kind and nothing else; at the other ids there is what was there. -/
theorem get_create (h : doc.len < u32Max) (kind : NodeKind) (id : NodeId) :
    (doc.create kind).2.get id = if id = (doc.create kind).1 then some { kind } else doc.get id := by
  rw [create, if_neg (Nat.not_le_of_lt h)]
  have hindex : (NodeId.fromIndex doc.len).index = doc.nodes.length := NodeId.index_fromIndex (Nat.le_of_lt h)
  by_cases hid : id = .fromIndex doc.len
  · rw [if_pos hid, hid]
    simp only [get, hindex, List.getElem?_concat_length]
  · rw [if_neg hid]
    have hne : id.index ≠ doc.nodes.length := fun hi => hid (NodeId.ext_index (hi.trans hindex.symm))
    rcases Nat.lt_or_gt_of_ne hne with hlt | hgt
    · exact List.getElem?_append_left hlt
    · have hlen : (doc.nodes ++ [({ kind } : Node)]).length ≤ id.index := by
        rw [List.length_append, List.length_singleton]
        exact hgt
      exact (List.getElem?_eq_none hlen).trans (List.getElem?_eq_none (Nat.le_of_lt hgt)).symm

/-- A new node leaves the others as they are. -/
theorem get_create_ne (kind : NodeKind) {id : NodeId} (h : id ≠ (doc.create kind).1) :
    (doc.create kind).2.get id = doc.get id := by
  by_cases hroom : doc.len < u32Max
  · rw [get_create hroom, if_neg h]
  · rw [create_full hroom]

/-! ## The kinds of the nodes -/

/-- The forest knows the nodes that are there. -/
theorem known_iff {id : NodeId} : doc.forest.Known id ↔ ∃ n, doc.get id = some n := by
  rw [OrderedForest.Known, Document.forest, Option.isSome_map, Option.isSome_iff_exists]

/-- A change that keeps the kind of a node keeps all kinds. -/
theorem kind_modify (doc : Document) (id : NodeId) {f : Node → Node} (h : ∀ n, (f n).kind = n.kind) :
    (doc.modify id f).forest.kind = doc.forest.kind := by
  funext x
  simp only [Document.forest, get_modify]
  split
  · rw [Option.map_map]
    exact congrArg (fun g => (doc.get x).map g) (funext h)
  · rfl

/-- Unlinking changes no kind. -/
theorem kind_unlink (doc : Document) (id : NodeId) : (doc.unlink id).forest.kind = doc.forest.kind := by
  unfold unlink
  split
  · rfl
  · split
    · rfl
    · simp only [kind_modify, implies_true]
      split <;> simp only [kind_modify, implies_true] <;> split <;> simp only [kind_modify, implies_true]

/-- Linking at the end changes no kind. -/
theorem kind_linkLast (doc : Document) (parent child : NodeId) :
    (doc.linkLast parent child).forest.kind = doc.forest.kind := by
  simp only [linkLast, kind_modify, implies_true]
  split <;> simp only [kind_modify, implies_true]

/-- Linking before a sibling changes no kind. -/
theorem kind_linkBefore (doc : Document) (parent sibling new : NodeId) :
    (doc.linkBefore parent sibling new).forest.kind = doc.forest.kind := by
  simp only [linkBefore, kind_modify, implies_true]
  split <;> simp only [kind_modify, implies_true]

/-! ## The invariant -/

/-- The links of the document are those of the forest with child lists `kids`. -/
structure Tree (doc : Document) (kids : NodeId → List NodeId) : Prop where
  represents : Represents doc.links kids
  wf : WellFounded (Child kids)
  root : ∀ p, doc.root ∉ kids p
  nonempty : 0 < doc.len
  capped : doc.len ≤ u32Max

namespace Tree

/-- The root is there. -/
theorem get_root (t : Tree doc kids) : ∃ n, doc.get doc.root = some n := by
  have h : (0 : Nat) < doc.nodes.length := t.nonempty
  refine ⟨doc.nodes[0], ?_⟩
  rw [get, Document.root, NodeId.index_fromIndex (Nat.zero_le _)]
  exact List.getElem?_eq_getElem h

/-- The root has no parent. -/
theorem root_orphan (t : Tree doc kids) {n : Node} (h : doc.get doc.root = some n) : n.parent = none := by
  cases hp : n.parent with
  | none => rfl
  | some p => exact absurd ((t.represents.parent _ _ (links_eq_some h) p).1 hp) (t.root p)

/-- A node is a child of the parent it names. -/
theorem parent_iff (t : Tree doc kids) {c p : NodeId} {n : Node} (h : doc.get c = some n) :
    n.parent = some p ↔ c ∈ kids p :=
  t.represents.parent c n.links (links_eq_some h) p

/-- Children are there. -/
theorem get_child (t : Tree doc kids) {c p : NodeId} (h : c ∈ kids p) : ∃ n, doc.get c = some n := by
  have hc := t.represents.present p c h
  cases hg : doc.get c with
  | none => rw [links_eq_none hg] at hc; exact absurd hc (by simp)
  | some n => exact ⟨n, rfl⟩

/-- A node with children is there. -/
theorem get_parent (t : Tree doc kids) {c p : NodeId} (h : c ∈ kids p) : ∃ n, doc.get p = some n := by
  obtain ⟨l, hl⟩ := t.represents.parent_present h
  obtain ⟨n, hn, -⟩ := Option.map_eq_some_iff.1 hl
  exact ⟨n, hn⟩

/-- The parent relation, read off the child lists. -/
theorem bind_parent (t : Tree doc kids) (c p : NodeId) : (doc.get c).bind (·.parent) = some p ↔ c ∈ kids p := by
  constructor
  · intro h
    obtain ⟨n, hn, hp⟩ := Option.bind_eq_some_iff.1 h
    exact (t.parent_iff hn).1 hp
  · intro h
    obtain ⟨n, hn⟩ := t.get_child h
    rw [hn, Option.bind_some]
    exact (t.parent_iff hn).2 h

/-- No node is below itself. -/
theorem not_transGen_self (t : Tree doc kids) (x : NodeId) : ¬Relation.TransGen (Child kids) x x :=
  t.wf.transGen.irrefl.irrefl x

/-- Walking from node to parent ends as well. -/
theorem wf_up (t : Tree doc kids) : WellFounded (fun p c => c ∈ kids p) := by
  let above : NodeId → NodeId → Prop := fun p c => Relation.TransGen (Child kids) c p
  have : IsTrans NodeId above := ⟨fun _ _ _ h h' => Relation.TransGen.trans h' h⟩
  have : Std.Irrefl above := ⟨fun x => t.not_transGen_self x⟩
  have wf : WellFounded above := Finite.wellFounded_of_trans_of_irrefl above
  exact Subrelation.wf (fun h => Relation.TransGen.single h) wf

/-- A node that is there is below the length. -/
theorem index_lt_len {id : NodeId} {n : Node} (h : doc.get id = some n) : id.index < doc.len :=
  (List.getElem?_eq_some_iff.1 h).1

/-- A child list is no longer than the arena. -/
theorem length_kids_le (t : Tree doc kids) (p : NodeId) : (kids p).length ≤ doc.len := by
  refine Forest.length_le_of_nodup (t.represents.nodup p) NodeId.index (fun _ _ => NodeId.ext_index) fun c hc => ?_
  obtain ⟨n, hn⟩ := t.get_child hc
  exact index_lt_len hn

/-- The walk over the children yields the child list: its cap never cuts it short. -/
theorem children_eq (t : Tree doc kids) (p : NodeId) : doc.children p = kids p := by
  have walk : ∀ (R L : List NodeId) (remaining : Nat), kids p = L ++ R → R.length ≤ remaining →
      doc.siblingsFrom remaining R.head? = R := by
    intro R
    induction R with
    | nil => intro L remaining _ _; cases remaining <;> rfl
    | cons c R ih =>
      intro L remaining hk hlen
      obtain ⟨n, hn⟩ := t.get_child (p := p) (c := c) (by simp [hk])
      have hnext : n.nextSibling = R.head? := (t.represents.place p L c R n.links hk (links_eq_some hn)).2
      cases remaining with
      | zero => simp at hlen
      | succ remaining =>
        rw [List.head?_cons, siblingsFrom, hn, Option.bind_some, hnext]
        exact congrArg _ (ih (L ++ [c]) remaining (by simp [hk]) (by simpa using hlen))
  unfold children
  cases hp : doc.get p with
  | none =>
    rw [t.represents.absent p (links_eq_none hp)]
    cases doc.len <;> rfl
  | some n =>
    have hfirst : n.firstChild = (kids p).head? := t.represents.first p n.links (links_eq_some hp)
    rw [Option.bind_some, hfirst]
    exact walk (kids p) [] doc.len rfl (t.length_kids_le p)

/-- The forest has the children of the tree. -/
theorem forest_kids (t : Tree doc kids) : doc.forest.kids = kids := funext t.children_eq

/-- The forest is the kinds of the nodes, and the tree. -/
theorem forest_eq (t : Tree doc kids) : doc.forest = ⟨fun id => (doc.get id).map (·.kind), kids⟩ :=
  congrArg (OrderedForest.mk _) t.forest_kids

/-- No node has two parents. -/
theorem forest_uniqueParents (t : Tree doc kids) : Forest.UniqueParents doc.forest.kids :=
  t.forest_kids ▸ t.represents.uniqueParents

/-- The forest's parents are those the nodes name. -/
theorem forest_parent (t : Tree doc kids) {id : NodeId} {n : Node} (h : doc.get id = some n) :
    doc.forest.parent id = n.parent := by
  refine Option.ext ?_
  intro p
  rw [OrderedForest.parent_eq_some_iff t.forest_uniqueParents, t.parent_iff h, t.forest_kids]

end Tree

/-! ## Each operation returns, and keeps the invariant -/

/-- A new document is a tree of its root. -/
theorem tree_new (baseUrl : String) : Tree (Document.new baseUrl) (fun _ => []) := by
  have hlinks : ∀ id n, (Document.new baseUrl).links id = some n → n = ⟨none, none, none, none, none⟩ := by
    intro id n h
    obtain ⟨m, hm, rfl⟩ := Option.map_eq_some_iff.1 h
    obtain rfl : m = { kind := .document } := List.mem_singleton.1 (List.mem_of_getElem? hm)
    rfl
  refine ⟨⟨fun _ _ => rfl, by simp, by simp, ?_, ?_, ?_, by simp, ?_⟩, ⟨fun x => ⟨x, by simp [Child]⟩⟩, by simp, ?_, ?_⟩
  · intro p n h; rw [hlinks p n h]; rfl
  · intro p n h; rw [hlinks p n h]; rfl
  · intro c n h p; rw [hlinks c n h]; simp
  · intro c n h _; rw [hlinks c n h]; exact ⟨rfl, rfl⟩
  · simp [len, new]
  · simp [len, new, u32Max]

/-- A call is refused with that error and leaves the document as it is, or it is carried out and leaves the invariant with that
forest. -/
inductive Outcome (doc : Document) (refusal : Option DomError) (forest : OrderedForest) :
    Part (Except DomError Unit × Document) → Prop where
  | refused {e : DomError} (h : refusal = some e) : Outcome doc refusal forest (.some (.error e, doc))
  | done {doc' : Document} (h : refusal = none) (t : Tree doc' forest.kids) (hk : doc'.forest.kind = forest.kind) :
      Outcome doc refusal forest (.some (.ok (), doc'))

/-- Whatever the call does, it returns and the invariant is kept. -/
theorem Outcome.tree {refusal : Option DomError} {F : OrderedForest} {result : Part (Except DomError Unit × Document)}
    (h : Outcome doc refusal F result) (t : Tree doc kids) : ∃ r doc' kids', result = .some (r, doc') ∧ Tree doc' kids' := by
  cases h with
  | refused _ => exact ⟨_, doc, kids, rfl, t⟩
  | @done doc' _ t' _ => exact ⟨_, doc', _, rfl, t'⟩

/-- An outcome says what the document becomes. -/
theorem Outcome.carries {refusal : Option DomError} {F : OrderedForest} {result : Part (Except DomError Unit × Document)}
    (h : Outcome doc refusal F result) : Carries doc refusal F result := by
  cases h with
  | refused h => exact .refused h
  | done h t hk => exact .done h (OrderedForest.ext hk t.forest_kids)

/-- A detached node without children may be attached wherever another is. -/
theorem checkAttach_of_leaf {doc : Document} {parent child : NodeId} {n : Node} (hparent : (doc.get parent).isSome)
    (hchild : doc.get child = some n) (hroot : child ≠ doc.root) (hne : child ≠ parent) (hleaf : n.firstChild = none)
    (hdetached : n.parent = none) : doc.checkAttach parent child = .some (.ok ()) := by
  obtain ⟨m, hm⟩ := Option.isSome_iff_exists.1 hparent
  simp [checkAttach, hm, hchild, hroot, hne, hleaf, hdetached]

namespace Tree

/-- A new node is nobody's child and has no children. -/
theorem create (t : Tree doc kids) (kind : NodeKind) : Tree (doc.create kind).2 kids := by
  by_cases hroom : doc.len < u32Max
  · have hlinks : (doc.create kind).2.links = LinkedForest.add doc.links (doc.create kind).1 := by
      funext id
      rw [links, get_create hroom, LinkedForest.add]
      split <;> rfl
    have hnew : doc.links (doc.create kind).1 = none := links_eq_none (get_create_id t.capped kind)
    have hlen := len_create hroom kind
    refine ⟨hlinks ▸ t.represents.add hnew, t.wf, t.root, ?_, ?_⟩ <;> omega
  · rw [create_full hroom]
    exact t

/-- The ancestor walk returns, and answers whether the one node is above or equal to the other. -/
theorem isAncestorOrSelf (t : Tree doc kids) (candidate node : NodeId) :
    ∃ b, doc.isAncestorOrSelf candidate node = .some b ∧ (b = true ↔ Relation.ReflTransGen (Child kids) node candidate) := by
  induction node using t.wf_up.induction with
  | _ node ih =>
    unfold Document.isAncestorOrSelf at *
    by_cases he : node = candidate
    · exact ⟨true, While.loop_inr (by simp [ancestorStep, he]), by simp [he, Relation.ReflTransGen.refl]⟩
    · cases hp : (doc.get node).bind (·.parent) with
      | none =>
        refine ⟨false, While.loop_inr (by simp [ancestorStep, he, hp]), by simp, ?_⟩
        intro h
        rcases Relation.ReflTransGen.cases_head h with h | ⟨p, hc, -⟩
        · exact absurd h he
        · rw [(t.bind_parent node p).2 hc] at hp
          cases hp
      | some p =>
        have hc : node ∈ kids p := (t.bind_parent node p).1 hp
        obtain ⟨b, hb, hiff⟩ := ih p hc
        refine ⟨b, (While.loop_inl (by simp [ancestorStep, he, hp])).trans hb, hiff.trans ⟨fun h => h.head hc, fun h => ?_⟩⟩
        rcases Relation.ReflTransGen.cases_head h with h | ⟨q, hq, h⟩
        · exact absurd h he
        · obtain rfl := t.represents.uniqueParents.parent node q p hq hc
          exact h

/-- The check for a cycle, by the walk or by its shortcut. -/
theorem makesCycle (t : Tree doc kids) (parent : NodeId) {child : NodeId} {n : Node} (hc : doc.get child = some n) :
    ∃ b, (if n.firstChild.isNone then .some (decide (child = parent)) else doc.isAncestorOrSelf child parent) = .some b ∧
      (b = true ↔ Relation.ReflTransGen (Child kids) parent child) := by
  split
  · rename_i hfirst
    refine ⟨_, rfl, ?_⟩
    -- nothing is below a node without children
    have hnil : kids child = [] := by
      have := t.represents.first child n.links (links_eq_some hc)
      rw [Option.isNone_iff_eq_none.1 (show n.links.firstChild.isNone = true from hfirst)] at this
      exact List.head?_eq_none_iff.1 this.symm
    simp only [decide_eq_true_eq]
    refine ⟨fun h => h ▸ Relation.ReflTransGen.refl, fun h => ?_⟩
    rcases Relation.ReflTransGen.cases_tail h with h | ⟨c, -, hc⟩
    · exact h
    · rw [Child, hnil] at hc
      exact absurd hc List.not_mem_nil
  · exact t.isAncestorOrSelf child parent

/-- `checkAttach` answers with the first check that fails. -/
theorem checkAttach (t : Tree doc kids) (parent child : NodeId) :
    doc.checkAttach parent child = .some (answer (doc.forest.attachRefusal doc.root parent child)) := by
  unfold Document.checkAttach OrderedForest.attachRefusal
  rw [t.forest_eq]
  cases hp : doc.get parent with
  | none => simp [OrderedForest.Known, hp, answer]
  | some m =>
    cases hc : doc.get child with
    | none => simp [OrderedForest.Known, hp, hc, answer]
    | some n =>
      by_cases hroot : child = doc.root
      · simp [OrderedForest.Known, hp, ← hroot, hc, answer]
      · obtain ⟨b, hb, hiff⟩ := t.makesCycle parent hc
        have hatt : OrderedForest.Attached ⟨fun id => (doc.get id).map (·.kind), kids⟩ child ↔ n.parent.isSome := by
          rw [Option.isSome_iff_exists]
          exact exists_congr fun p => (t.parent_iff hc).symm
        simp only [hb, hroot, hatt, OrderedForest.Known, OrderedForest.AboveOrSelf, ← hiff, hp, hc]
        cases b <;> cases n.parent <;> simp [answer]

/-- What may be attached, read off the nodes. -/
theorem attachable_iff (t : Tree doc kids) {root parent child : NodeId} : doc.forest.Attachable root parent child ↔
    (∃ m, doc.get parent = some m) ∧ (∃ n, doc.get child = some n ∧ n.parent = none) ∧ child ≠ root ∧
      ¬Relation.ReflTransGen (Child kids) parent child := by
  have hkids := t.forest_kids
  constructor
  · rintro ⟨hp, hc, hroot, hup, hfree⟩
    obtain ⟨n, hn⟩ := known_iff.1 hc
    refine ⟨known_iff.1 hp, ⟨n, hn, ?_⟩, hroot, hkids ▸ hup⟩
    exact Option.eq_none_iff_forall_ne_some.2 fun p h => hfree ⟨p, hkids ▸ (t.parent_iff hn).1 h⟩
  · rintro ⟨hp, ⟨n, hn, hnp⟩, hroot, hup⟩
    refine ⟨known_iff.2 hp, known_iff.2 ⟨n, hn⟩, hroot, ?_, ?_⟩
    · rwa [OrderedForest.AboveOrSelf, hkids]
    · rintro ⟨p, hp⟩
      rw [hkids] at hp
      rw [(t.parent_iff hn).2 hp] at hnp
      cases hnp

/-- A node may be put before a sibling if it may be attached to the sibling's parent. -/
theorem insertRefusal_eq_none_iff (t : Tree doc kids) {root s n : NodeId} :
    doc.forest.insertRefusal root s n = none ↔ ∃ p, s ∈ doc.forest.kids p ∧ doc.forest.Attachable root p n :=
  OrderedForest.insertRefusal_eq_none_iff t.forest_uniqueParents fun _ _ hc => known_iff.2 (t.get_child (t.forest_kids ▸ hc))

/-- Taking a node out of its parent's child list. -/
theorem unlink (t : Tree doc kids) {id p : NodeId} {L R : List NodeId} (hk : kids p = L ++ id :: R) :
    Tree (doc.unlink id) (setKids kids p (L ++ R)) := by
  have hid : id ∈ kids p := hk ▸ List.mem_append_right _ List.mem_cons_self
  obtain ⟨n, hn⟩ := t.get_child hid
  have hplace := t.represents.place p L id R n.links hk (links_eq_some hn)
  have hlinks : (doc.unlink id).links = LinkedForest.unlink doc.links p L.getLast? R.head? id := by
    rw [links_unlink hn ((t.parent_iff hn).2 hid), ← hplace.1, ← hplace.2]
    rfl
  have hsub : L ++ R ⊆ kids p := by
    rw [hk]
    intro x hx
    simp only [List.mem_append, List.mem_cons] at hx ⊢
    tauto
  refine ⟨hlinks ▸ t.represents.unlink hk, LinkedForest.wellFounded_setKids_of_subset t.wf hsub, ?_, ?_, ?_⟩
  · intro q hq
    by_cases hqp : q = p
    · subst hqp
      rw [LinkedForest.setKids_self] at hq
      exact t.root q (hsub hq)
    · rw [LinkedForest.setKids_ne _ _ hqp] at hq
      exact t.root q hq
  · rw [len_unlink]; exact t.nonempty
  · rw [len_unlink]; exact t.capped

/-- Linking a node without parent in, at a place of a child list that `links'` says. -/
theorem link {doc' : Document} (t : Tree doc kids) {p c : NodeId} {m n : Node} {L R : List NodeId} (hk : kids p = L ++ R)
    (hp : doc.get p = some m) (hc : doc.get c = some n) (hn : n.parent = none) (hroot : c ≠ doc.root)
    (hpc : ¬Relation.ReflTransGen (Child kids) p c)
    (hlinks : doc'.links = LinkedForest.link doc.links p L.getLast? R.head? c) (hlen : doc'.len = doc.len) :
    Tree doc' (setKids kids p (L ++ c :: R)) := by
  refine ⟨?_, LinkedForest.wellFounded_setKids_insert t.wf ?_ hpc, ?_, hlen ▸ t.nonempty, hlen ▸ t.capped⟩
  · rw [hlinks]
    exact t.represents.link hk (by rw [links_eq_some hp]; rfl) (links_eq_some hc) hn
  · intro x hx
    rw [hk]
    simp only [List.mem_append, List.mem_cons] at hx ⊢
    tauto
  · intro q hq
    by_cases hqp : q = p
    · subst hqp
      rw [LinkedForest.setKids_self, List.mem_append, List.mem_cons] at hq
      rcases hq with hq | hq | hq
      · exact t.root q (hk ▸ List.mem_append_left _ hq)
      · exact hroot hq.symm
      · exact t.root q (hk ▸ List.mem_append_right _ hq)
    · rw [LinkedForest.setKids_ne _ _ hqp] at hq
      exact t.root q hq

/-- Linking a node without parent in as the last child. -/
theorem linkLast (t : Tree doc kids) {p c : NodeId} {m n : Node} (hp : doc.get p = some m) (hc : doc.get c = some n)
    (hn : n.parent = none) (hroot : c ≠ doc.root) (hpc : ¬Relation.ReflTransGen (Child kids) p c) :
    Tree (doc.linkLast p c) (setKids kids p (kids p ++ [c])) := by
  refine t.link (List.append_nil _).symm hp hc hn hroot hpc ?_ (len_linkLast _ _ _)
  rw [links_linkLast, hp, Option.bind_some, ← t.represents.last p m.links (links_eq_some hp)]
  rfl

/-- `appendChild` is refused, or makes the child the last one. -/
theorem appendChild (t : Tree doc kids) (p c : NodeId) :
    Outcome doc (doc.forest.attachRefusal doc.root p c) (doc.forest.append p c) (doc.appendChild p c) := by
  unfold Document.appendChild
  rw [t.checkAttach]
  cases hr : doc.forest.attachRefusal doc.root p c with
  | some e =>
    simp only [answer, Part.bind_eq_bind, Part.bind_some]
    exact .refused rfl
  | none =>
    obtain ⟨⟨m, hm⟩, ⟨n, hn, hnp⟩, hroot, hup⟩ := t.attachable_iff.1 (OrderedForest.attachRefusal_eq_none_iff.1 hr)
    simp only [answer, Part.bind_eq_bind, Part.bind_some]
    refine .done rfl ?_ (kind_linkLast doc p c)
    rw [OrderedForest.append, t.forest_kids]
    exact t.linkLast hm hn hnp hroot hup

/-- `insertBefore` is refused, or puts the new node immediately before its sibling. -/
theorem insertBefore (t : Tree doc kids) (s n : NodeId) :
    Outcome doc (doc.forest.insertRefusal doc.root s n) (doc.forest.insertBefore s n) (doc.insertBefore s n) := by
  unfold Document.insertBefore OrderedForest.insertRefusal
  cases hnew : doc.get n with
  | none =>
    have : ¬doc.forest.Known n := fun h => by obtain ⟨m, hm⟩ := known_iff.1 h; rw [hnew] at hm; cases hm
    exact .refused (if_pos this)
  | some new =>
    cases hsib : doc.get s with
    | none =>
      have : ¬doc.forest.Known s := fun h => by obtain ⟨m, hm⟩ := known_iff.1 h; rw [hsib] at hm; cases hm
      refine .refused ?_
      rw [if_neg (not_not.2 (known_iff.2 ⟨new, hnew⟩)), if_pos this]
    | some sib =>
      simp only [known_iff.2 ⟨new, hnew⟩, known_iff.2 ⟨sib, hsib⟩, not_true_eq_false, if_false, Option.isNone_some,
        Bool.false_eq_true]
      have hparent : doc.forest.parent s = sib.parent := t.forest_parent hsib
      rw [OrderedForest.insertBefore, hparent]
      cases hpar : sib.parent with
      | none => exact .refused rfl
      | some p =>
        simp only [t.checkAttach]
        cases hr : doc.forest.attachRefusal doc.root p n with
        | some e =>
          simp only [answer, Part.bind_eq_bind, Part.bind_some]
          exact .refused rfl
        | none =>
          obtain ⟨⟨m, hm⟩, ⟨n', hn', hnp⟩, hroot, hup⟩ :=
            t.attachable_iff.1 (OrderedForest.attachRefusal_eq_none_iff.1 hr)
          obtain ⟨L, R, hk⟩ := List.append_of_mem ((t.parent_iff hsib).1 hpar)
          have hplace := t.represents.place p L s R sib.links hk (links_eq_some hsib)
          simp only [answer, Part.bind_eq_bind, Part.bind_some]
          refine .done rfl ?_ (kind_linkBefore doc p s n)
          simp only [t.forest_kids, hk, LinkedForest.insertIdx_idxOf (t.represents.not_mem_left hk)]
          refine t.link hk hm hn' hnp hroot hup ?_ (len_linkBefore _ _ _ _)
          rw [links_linkBefore, hsib, Option.bind_some, ← hplace.1]
          rfl

/-- `detach` is refused, or takes the node out of the child list it is in. -/
theorem detach (t : Tree doc kids) (id : NodeId) :
    Outcome doc (doc.forest.detachRefusal id) (doc.forest.remove id) (.some (doc.detach id)) := by
  unfold Document.detach OrderedForest.detachRefusal
  cases hid : doc.get id with
  | none =>
    have : ¬doc.forest.Known id := fun h => by obtain ⟨m, hm⟩ := known_iff.1 h; rw [hid] at hm; cases hm
    exact .refused (if_pos this)
  | some n =>
    have hrefusal : ¬¬doc.forest.Known id := not_not.2 (known_iff.2 ⟨n, hid⟩)
    refine .done (if_neg hrefusal) ?_ ((kind_unlink doc id).trans (OrderedForest.kind_remove id).symm)
    rw [OrderedForest.remove, t.forest_parent hid]
    cases hp : n.parent with
    | none =>
      rw [unlink_of_orphan hid hp]
      simpa only [t.forest_kids] using t
    | some p =>
      obtain ⟨L, R, hk⟩ := List.append_of_mem ((t.parent_iff hid).1 hp)
      simp only [t.forest_kids, hk, LinkedForest.erase_child (t.represents.not_mem_left hk)]
      exact t.unlink hk

/-- One child moves: it leaves the one child list and ends the other, and the new parent stays outside the old parent's
subtree. -/
theorem reparentStep (t : Tree doc kids) {source target c : NodeId} {rest : List NodeId}
    (hs : kids source = c :: rest) (hm : ∃ m, doc.get target = some m) (hne : source ≠ target)
    (hout : ¬Relation.ReflTransGen (Child kids) target source) :
    Tree ((doc.unlink c).linkLast target c) (setKids (setKids kids source rest) target (kids target ++ [c])) ∧
      ¬Relation.ReflTransGen (Child (setKids (setKids kids source rest) target (kids target ++ [c]))) target source := by
  obtain ⟨m, hm⟩ := hm
  have hc : c ∈ kids source := hs ▸ List.mem_cons_self
  have hcr : c ∉ rest := (List.nodup_cons.1 (hs ▸ t.represents.nodup source)).1
  obtain ⟨n, hn⟩ := t.get_child hc
  have t1 : Tree (doc.unlink c) (setKids kids source rest) := t.unlink (L := []) (by simpa using hs)
  have hsub : ∀ x q, x ∈ setKids kids source rest q → x ∈ kids q := by
    intro x q hx
    by_cases hq : q = source
    · subst hq
      rw [LinkedForest.setKids_self] at hx
      exact hs ▸ List.mem_cons_of_mem _ hx
    · rwa [LinkedForest.setKids_ne _ _ hq] at hx
  have horphan : ∀ q, c ∉ setKids kids source rest q := by
    intro q hq
    by_cases h : q = source
    · subst h
      rw [LinkedForest.setKids_self] at hq
      exact hcr hq
    · exact h (t.represents.uniqueParents.parent c q source (hsub c q hq) hc)
  have hget : ∀ x k, doc.get x = some k → ∃ k', (doc.unlink c).get x = some k' := by
    intro x k hx
    have hlinks := links_unlink hn ((t.parent_iff hn).2 hc)
    have : ((doc.unlink c).links x).isSome := by
      rw [hlinks, LinkedForest.unlink_apply, Option.isSome_map, links_eq_some hx]
      rfl
    cases hg : (doc.unlink c).get x with
    | none => rw [links_eq_none hg] at this; cases this
    | some k' => exact ⟨k', rfl⟩
  obtain ⟨m', hm'⟩ := hget target m hm
  obtain ⟨n', hn'⟩ := hget c n hn
  have hnp : n'.parent = none := by
    cases hp : n'.parent with
    | none => rfl
    | some p => exact absurd ((t1.parent_iff hn').1 hp) (horphan p)
  have hcroot : c ≠ (doc.unlink c).root := fun e => t.root source (e ▸ hc)
  have hup : ∀ x, Relation.ReflTransGen (Child (setKids kids source rest)) target x →
      Relation.ReflTransGen (Child kids) target x :=
    fun x hx => Relation.ReflTransGen.mono (fun a b hab => hsub a b hab) _ _ hx
  have hpc : ¬Relation.ReflTransGen (Child (setKids kids source rest)) target c :=
    fun h => hout ((hup c h).tail hc)
  have htk : setKids kids source rest target = kids target := LinkedForest.setKids_ne _ _ (Ne.symm hne)
  refine ⟨?_, fun h => ?_⟩
  · have := t1.linkLast hm' hn' hnp hcroot hpc
    rwa [htk] at this
  · -- above `target` nothing has changed
    have key : ∀ x, Relation.ReflTransGen (Child (setKids (setKids kids source rest) target (kids target ++ [c]))) target x →
        Relation.ReflTransGen (Child (setKids kids source rest)) target x := by
      intro x hx
      induction hx with
      | refl => exact Relation.ReflTransGen.refl
      | @tail y z hy hyz ih =>
        by_cases hz : z = target
        · rw [hz]
        · rw [Child, LinkedForest.setKids_ne _ _ hz] at hyz
          exact ih.tail hyz
    exact hout (hup source (key source h))

/-- The first child of a node, as its link says. -/
theorem bind_firstChild (t : Tree doc kids) {p : NodeId} (hp : ∃ n, doc.get p = some n) :
    (doc.get p).bind (·.firstChild) = (kids p).head? := by
  obtain ⟨n, hn⟩ := hp
  rw [hn, Option.bind_some]
  exact t.represents.first p n.links (links_eq_some hn)

/-- The loop moves the children that are left, one after the other, and returns. -/
theorem reparentLoop {source target : NodeId} (hne : source ≠ target) (moving : List NodeId) :
    ∀ {doc : Document} {kids : NodeId → List NodeId}, Tree doc kids → kids source = moving →
      (∃ s, doc.get source = some s) → (∃ m, doc.get target = some m) → ¬Relation.ReflTransGen (Child kids) target source →
      ∃ doc', While.loop (Document.reparentStep source target) doc = .some doc' ∧
        Tree doc' (setKids (setKids kids source []) target (kids target ++ moving)) ∧
        doc'.forest.kind = doc.forest.kind := by
  induction moving with
  | nil =>
    intro doc kids t hl hs _ _
    refine ⟨doc, While.loop_inr ?_, ?_, rfl⟩
    · simp [Document.reparentStep, t.bind_firstChild hs, hl]
    · have hsame : setKids (setKids kids source []) target (kids target ++ []) = kids := by
        rw [List.append_nil, ← hl, LinkedForest.setKids_same, LinkedForest.setKids_same]
      rwa [hsame]
  | cons c rest ih =>
    intro doc kids t hl hs hm hout
    obtain ⟨t', hout'⟩ := t.reparentStep hl hm hne hout
    have hget : ∀ {x : NodeId}, (∃ k, doc.get x = some k) → ∃ k', ((doc.unlink c).linkLast target c).get x = some k' := by
      rintro x ⟨k, hx⟩
      have hlen : ((doc.unlink c).linkLast target c).nodes.length = doc.nodes.length :=
        (len_linkLast _ _ _).trans (len_unlink _ _)
      exact ⟨_, List.getElem?_eq_getElem (hlen ▸ (List.getElem?_eq_some_iff.1 hx).1)⟩
    have hsource : setKids (setKids kids source rest) target (kids target ++ [c]) source = rest := by
      rw [LinkedForest.setKids_ne _ _ hne, LinkedForest.setKids_self]
    obtain ⟨doc', hloop, t'', hkind⟩ := ih t' hsource (hget hs) (hget hm) hout'
    refine ⟨doc', (While.loop_inl ?_).trans hloop, ?_, hkind.trans ((kind_linkLast _ _ _).trans (kind_unlink _ _))⟩
    · simp [Document.reparentStep, t.bind_firstChild hs, hl]
    · -- what is moved first comes first
      have hkids : setKids (setKids (setKids (setKids kids source rest) target (kids target ++ [c])) source []) target
          (setKids (setKids kids source rest) target (kids target ++ [c]) target ++ rest) =
          setKids (setKids kids source []) target (kids target ++ c :: rest) := by
        funext q
        by_cases hq : q = target
        · simp [setKids, hq]
        · simp only [setKids, if_neg hq]
          split <;> rfl
      rwa [hkids] at t''

/-- `reparentChildren` is refused, or moves all children of the source behind those of the target. -/
theorem reparentChildren (t : Tree doc kids) (source target : NodeId) :
    Outcome doc (doc.forest.reparentRefusal source target) (doc.forest.reparent source target)
      (doc.reparentChildren source target) := by
  unfold Document.reparentChildren OrderedForest.reparentRefusal
  cases hs : doc.get source with
  | none =>
    have : ¬doc.forest.Known source := fun h => by obtain ⟨m, hm⟩ := known_iff.1 h; rw [hs] at hm; cases hm
    exact .refused (if_pos this)
  | some s =>
    cases hm : doc.get target with
    | none =>
      have : ¬doc.forest.Known target := fun h => by obtain ⟨m, hm'⟩ := known_iff.1 h; rw [hm] at hm'; cases hm'
      refine .refused ?_
      rw [if_neg (not_not.2 (known_iff.2 ⟨s, hs⟩)), if_pos this]
    | some m =>
      simp only [known_iff.2 ⟨s, hs⟩, known_iff.2 ⟨m, hm⟩, not_true_eq_false, if_false, Option.isNone_some,
        Bool.false_eq_true, OrderedForest.reparent]
      by_cases hne : source = target
      · simp only [if_pos hne]
        exact .done rfl (t.forest_kids ▸ t) rfl
      · simp only [if_neg hne]
        have habove : doc.forest.AboveOrSelf source target ↔ Relation.ReflTransGen (Child kids) target source := by
          rw [OrderedForest.AboveOrSelf, t.forest_kids]
        obtain ⟨b, hb, hiff⟩ := t.isAncestorOrSelf source target
        rw [hb, Part.bind_eq_bind, Part.bind_some]
        cases b with
        | true => exact .refused (if_pos (habove.2 (hiff.1 rfl)))
        | false =>
          have hout : ¬Relation.ReflTransGen (Child kids) target source := fun h => by simpa using hiff.2 h
          obtain ⟨doc', hloop, t', hkind⟩ := reparentLoop hne (kids source) t rfl ⟨s, hs⟩ ⟨m, hm⟩ hout
          simp only [Bool.false_eq_true, if_false, hloop, Part.bind_eq_bind, Part.bind_some]
          refine .done (if_neg fun h => hout (habove.1 h)) ?_ ?_
          · simpa only [t.forest_kids] using t'
          · exact hkind

end Tree

end Document

end ChromeLight
