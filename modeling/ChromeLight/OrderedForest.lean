import ChromeLight.Dom
import ChromeLight.Lib.LinkedForest
import Mathlib.Logic.Relation

/-!
# The ordered forest a document stands for

What the arena is for: nodes of some kind, each with an ordered list of children. Here the operations that move one node are
surgeries on one child list (`append`, `insertBefore`, `remove`), and what they are refused for is said in terms of the
forest, with the checks in the order in which `cl-dom` documents them. `Document.forest` is the forest of a document, read
back with `Document.children`.
-/

namespace ChromeLight

open LinkedForest (setKids)
open Forest (Child)

/-- The nodes of a document by kind, none for an id without a node, and their child lists. -/
@[ext]
structure OrderedForest where
  kind : NodeId → Option NodeKind
  kids : NodeId → List NodeId

namespace OrderedForest

variable (F : OrderedForest)

def Known (id : NodeId) : Prop := (F.kind id).isSome

/-- `a` is `x` or one of its ancestors. -/
def AboveOrSelf (a x : NodeId) : Prop := Relation.ReflTransGen (Child F.kids) x a

def Attached (id : NodeId) : Prop := ∃ p, id ∈ F.kids p

open Classical in
/-- The node in whose child list a node is. -/
noncomputable def parent (id : NodeId) : Option NodeId :=
  if h : F.Attached id then some h.choose else none

/-! ## What is refused -/

/-- When a node may be attached under another. -/
structure Attachable (root parent child : NodeId) : Prop where
  knownParent : F.Known parent
  knownChild : F.Known child
  notRoot : child ≠ root
  acyclic : ¬F.AboveOrSelf child parent
  detached : ¬F.Attached child

open Classical in
/-- Why attaching is refused: the first check that fails. -/
noncomputable def attachRefusal (root parent child : NodeId) : Option DomError :=
  if ¬F.Known parent then some (.noSuchNode parent)
  else if ¬F.Known child then some (.noSuchNode child)
  else if child = root then some .isDocument
  else if F.AboveOrSelf child parent then some (.cycle child parent)
  else if F.Attached child then some (.notDetached child)
  else none

open Classical in
/-- Why inserting before a sibling is refused: the first check that fails. -/
noncomputable def insertRefusal (root sibling new : NodeId) : Option DomError :=
  if ¬F.Known new then some (.noSuchNode new)
  else if ¬F.Known sibling then some (.noSuchNode sibling)
  else match F.parent sibling with
    | none => some .isDocument
    | some p => F.attachRefusal root p new

open Classical in
/-- Why detaching is refused. -/
noncomputable def detachRefusal (id : NodeId) : Option DomError :=
  if ¬F.Known id then some (.noSuchNode id) else none

open Classical in
/-- Why moving all children of a node is refused: the first check that fails. Moving them to the node itself is not. -/
noncomputable def reparentRefusal (source target : NodeId) : Option DomError :=
  if ¬F.Known source then some (.noSuchNode source)
  else if ¬F.Known target then some (.noSuchNode target)
  else if source = target then none
  else if F.AboveOrSelf source target then some (.cycle source target)
  else none

/-! ## What is done -/

/-- The child becomes the last one of its parent. -/
def append (p c : NodeId) : OrderedForest := { F with kids := setKids F.kids p (F.kids p ++ [c]) }

/-- The new node comes immediately before its sibling, in the child list the sibling is in. -/
noncomputable def insertBefore (s n : NodeId) : OrderedForest :=
  match F.parent s with
  | none => F
  | some p => { F with kids := setKids F.kids p ((F.kids p).insertIdx ((F.kids p).idxOf s) n) }

/-- The node leaves the child list it is in. -/
noncomputable def remove (id : NodeId) : OrderedForest :=
  match F.parent id with
  | none => F
  | some p => { F with kids := setKids F.kids p ((F.kids p).erase id) }

/-- The children of the source become the last ones of the target, in order. -/
def reparent (source target : NodeId) : OrderedForest :=
  if source = target then F
  else { F with kids := setKids (setKids F.kids source []) target (F.kids target ++ F.kids source) }

/-! ## Facts of the forest -/

variable {F}

@[simp] theorem kind_remove (id : NodeId) : (F.remove id).kind = F.kind := by
  unfold remove
  split <;> rfl

theorem parent_eq_some_iff (hu : Forest.UniqueParents F.kids) {c p : NodeId} : F.parent c = some p ↔ c ∈ F.kids p := by
  unfold parent
  constructor
  · intro h
    split at h
    · rename_i hc
      exact Option.some.inj h ▸ hc.choose_spec
    · cases h
  · intro h
    have hc : F.Attached c := ⟨p, h⟩
    rw [dif_pos hc, hu.parent c hc.choose p hc.choose_spec h]

/-- Attaching is accepted exactly where it may be done. -/
theorem attachRefusal_eq_none_iff {root p c : NodeId} : F.attachRefusal root p c = none ↔ F.Attachable root p c := by
  unfold attachRefusal
  constructor
  · intro h
    split_ifs at h with h1 h2 h3 h4 h5
    exact ⟨h1, h2, h3, h4, h5⟩
  · rintro ⟨h1, h2, h3, h4, h5⟩
    rw [if_neg (not_not.2 h1), if_neg (not_not.2 h2), if_neg h3, if_neg h4, if_neg h5]

/-- Inserting is accepted exactly where the sibling has a parent under which the new node may be attached. -/
theorem insertRefusal_eq_none_iff (hu : Forest.UniqueParents F.kids) {root s n : NodeId}
    (hk : ∀ p, ∀ c ∈ F.kids p, F.Known c) :
    F.insertRefusal root s n = none ↔ ∃ p, s ∈ F.kids p ∧ F.Attachable root p n := by
  unfold insertRefusal
  constructor
  · intro h
    split_ifs at h with h1 h2
    cases hp : F.parent s with
    | none => rw [hp] at h; cases h
    | some p =>
      rw [hp] at h
      exact ⟨p, (parent_eq_some_iff hu).1 hp, attachRefusal_eq_none_iff.1 h⟩
  · rintro ⟨p, hs, ha⟩
    rw [if_neg (not_not.2 ha.knownChild), if_neg (not_not.2 (hk p s hs)), (parent_eq_some_iff hu).2 hs]
    exact attachRefusal_eq_none_iff.2 ha

/-- A new last child changes no child list below it. -/
theorem append_below {root p c : NodeId} (h : F.Attachable root p c) {x : NodeId} (hx : F.AboveOrSelf c x) :
    (F.append p c).kids x = F.kids x :=
  LinkedForest.setKids_ne _ _ fun e => h.acyclic (e ▸ hx)

/-- A node put before a sibling changes no child list below it. -/
theorem insertBefore_below (hu : Forest.UniqueParents F.kids) {root s n : NodeId}
    (h : ∃ p, s ∈ F.kids p ∧ F.Attachable root p n) {x : NodeId} (hx : F.AboveOrSelf n x) :
    (F.insertBefore s n).kids x = F.kids x := by
  obtain ⟨p, hs, ha⟩ := h
  rw [insertBefore, (parent_eq_some_iff hu).2 hs]
  exact LinkedForest.setKids_ne _ _ fun e => ha.acyclic (e ▸ hx)

/-- A node that leaves its child list changes no child list below it. -/
theorem remove_below (hu : Forest.UniqueParents F.kids) (wf : WellFounded (Child F.kids)) {id x : NodeId}
    (hx : F.AboveOrSelf id x) : (F.remove id).kids x = F.kids x := by
  unfold remove
  cases hp : F.parent id with
  | none => rfl
  | some p =>
    refine LinkedForest.setKids_ne _ _ ?_
    intro e
    -- the parent would be below its child
    have hc : Child F.kids id p := (parent_eq_some_iff hu).1 hp
    exact wf.transGen.irrefl.irrefl id (Relation.TransGen.head' hc (e ▸ hx))

/-- A node that leaves its child list leaves every child list, and no other node does. -/
theorem mem_remove (hu : Forest.UniqueParents F.kids) {id c p : NodeId} :
    c ∈ (F.remove id).kids p ↔ c ∈ F.kids p ∧ c ≠ id := by
  unfold remove
  cases hparent : F.parent id with
  | none =>
    refine (and_iff_left_of_imp ?_).symm
    rintro hc rfl
    rw [(parent_eq_some_iff hu).2 hc] at hparent
    cases hparent
  | some q =>
    have hq : id ∈ F.kids q := (parent_eq_some_iff hu).1 hparent
    by_cases hp : p = q
    · subst hp
      simp only [LinkedForest.setKids_self, (hu.nodup p).mem_erase_iff]
      exact and_comm
    · simp only [LinkedForest.setKids_ne _ _ hp]
      refine (and_iff_left_of_imp ?_).symm
      rintro hc rfl
      exact hp (hu.parent c p q hc hq)

/-- What is below a node stays below it when the node leaves its child list. -/
theorem aboveOrSelf_remove (hu : Forest.UniqueParents F.kids) (wf : WellFounded (Child F.kids)) {id x : NodeId} :
    (F.remove id).AboveOrSelf id x ↔ F.AboveOrSelf id x := by
  constructor
  · intro h
    have hsub : Child (F.remove id).kids ≤ Child F.kids := fun c p hc => ((mem_remove hu).1 hc).1
    exact Relation.ReflTransGen.mono hsub x id h
  · intro h
    induction h using Relation.ReflTransGen.head_induction_on with
    | refl => exact .refl
    | head hc hrest ih =>
      refine .head ?_ ih
      rw [Child, remove_below hu wf hrest]
      exact hc

end OrderedForest

/-- The forest of a document, as its children iterators read it. -/
def Document.forest (doc : Document) : OrderedForest where
  kind id := (doc.get id).map (·.kind)
  kids := doc.children

namespace Document

/-- The answer of a check that is refused for that reason, or not refused. -/
def answer : Option DomError → Except DomError Unit
  | some e => .error e
  | none => .ok ()

/-- A call is refused with that error and leaves the document as it is, or it is carried out and leaves a document that stands
for that forest. -/
inductive Carries (doc : Document) (refusal : Option DomError) (forest : OrderedForest) :
    Part (Except DomError Unit × Document) → Prop where
  | refused {e : DomError} (h : refusal = some e) : Carries doc refusal forest (.some (.error e, doc))
  | done {doc' : Document} (h : refusal = none) (hf : doc'.forest = forest) :
      Carries doc refusal forest (.some (.ok (), doc'))

end Document

end ChromeLight
