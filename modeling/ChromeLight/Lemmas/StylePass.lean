import ChromeLight.Lemmas.StyleRecords
import ChromeLight.Theorems.Handle
import Mathlib.Data.List.TakeWhile

/-!
# Lemmas on a style pass

The handles of the arena lead where the document says. A slot of the store is the record of its node, its cells filled for what was
asked (`Slot.Is`), and writing one leaves the others as they are; so a pass keeps what the records say (`Pass.Refines`), call by call.
-/

namespace ChromeLight

namespace Style

open Document (Tree)
open Forest (Child)

variable {doc : Document} {kids : NodeId → List NodeId} {done : List NodeId} {arena : NodeArena} {id c : NodeId} {n : Node}

/-! ## The links of the arena -/

/-- A link to a node that is there leads to it. -/
theorem Linking.bind_known (h : Linking doc kids done arena) {link : Option NodeId}
    (hlink : ∀ c, link = some c → ∃ n, doc.get c = some n) : link.bind arena.withId = link := by
  cases link with
  | none => rfl
  | some c =>
    obtain ⟨n, hn⟩ := hlink c rfl
    exact h.withId hn

/-- The arena's links are those of the document. -/
theorem Linking.follow (h : Linking doc kids done arena) (t : Tree doc kids) (link : NodeLink) (id : NodeId) :
    arena.follow link id = (doc.get id).bind link.read := by
  have hknown : ∀ c, (doc.get id).bind link.read = some c → ∃ n, doc.get c = some n := fun c hc => (related_read t hc).known t
  rw [← h.bind_known hknown, ← h.document]
  cases link <;> rfl

/-- The arena's parents are those of the document. -/
theorem Linking.parent (h : Linking doc kids done arena) (t : Tree doc kids) (id : NodeId) :
    arena.parent id = (doc.get id).bind Node.parent := h.follow t .parentNode id

/-- The arena's elements are those of the document. -/
theorem Linking.asElement (h : Linking doc kids done arena) (id : NodeId) :
    arena.asElement id = if isElement doc id then some id else none := by
  rw [NodeArena.asElement, h.document]

/-- The arena's children are those of the document. -/
theorem Linking.children (h : Linking doc kids done arena) (t : Tree doc kids) (id : NodeId) :
    arena.children id = doc.children id := by
  have hmap : (doc.children id).map arena.withId = (doc.children id).map some := by
    refine List.map_congr_left fun c hc => ?_
    rw [t.children_eq] at hc
    obtain ⟨n, hn⟩ := t.get_child hc
    exact h.withId hn
  have hall : ∀ x ∈ (doc.children id).map some, Option.isSome x = true := by simp
  rw [NodeArena.children, h.document, hmap, List.takeWhile_eq_self_iff.2 hall]
  show List.filterMap (fun there => there) ((doc.children id).map some) = doc.children id
  rw [List.filterMap_map]
  exact List.filterMap_some

/-- The arena's links among elements are those of the document. -/
theorem Linking.followElement (h : Linking doc kids done arena) (t : Tree doc kids) (hid : doc.get id = some n)
    (link : ElementLink) : arena.followElement link id = link.read doc id := by
  obtain ⟨s, hs⟩ := h.slots.slot hid
  have hsiblings : s.prevElementSibling = (siblingsBefore doc id).reverse.find? (isElement doc) ∧
      s.nextElementSibling = (siblingsAfter doc id).find? (isElement doc) := by
    cases hp : (doc.get id).bind Node.parent with
    | none =>
      have horphan : ∀ p, id ∉ kids p := fun p hmem => absurd (hp.symm.trans ((t.bind_parent id p).2 hmem)) (by simp)
      obtain ⟨hb, ha⟩ := siblings_of_orphan hp
      rw [hb, ha]
      exact h.slots.orphan id s hs horphan
    | some p =>
      have hmem := (t.bind_parent id p).1 hp
      obtain ⟨m, hm⟩ := t.get_parent hmem
      obtain ⟨L, R, hk⟩ := List.append_of_mem hmem
      obtain ⟨hb, ha⟩ := siblings_eq t hk
      rw [hb, ha]
      exact h.slots.siblings id s hs p (h.all p m hm) L R hk
  cases link with
  | parentElement =>
    show (arena.parent id).bind arena.asElement = ((doc.get id).bind Node.parent).filter (isElement doc)
    rw [h.parent t]
    cases (doc.get id).bind Node.parent with
    | none => rfl
    | some p => rw [Option.bind_some, h.asElement, Option.filter_some]
  | prevSiblingElement =>
    show (arena.slots[id.index]?).bind NodeSlot.prevElementSibling = _
    rw [hs]
    exact hsiblings.1
  | nextSiblingElement =>
    show (arena.slots[id.index]?).bind NodeSlot.nextElementSibling = _
    rw [hs]
    exact hsiblings.2
  | firstElementChild =>
    show (arena.slots[id.index]?).bind NodeSlot.firstElementChild = (doc.children id).find? (isElement doc)
    rw [hs, t.children_eq]
    exact h.slots.child id s hs (h.all id n hid)

/-! ## The slots -/

section

variable {υ ρ δ β φ γ : Type} [Inhabited δ] {S : Stylo υ δ β φ γ} {C : Net.UrlCrate υ ρ} {r : Records δ φ}
  {store : Store δ β φ} {slot : Slot δ β φ} {record : Record δ φ} {thread : ThreadId}

/-- A slot is the record of its node, its cells filled if the node was asked for what they hold. -/
structure Slot.Is (S : Stylo υ δ β φ γ) (C : Net.UrlCrate υ ρ) (r : Records δ φ) (id : NodeId) (record : Record δ φ)
    (slot : Slot δ β φ) : Prop where
  present : slot.present = record.data.isSome
  data : slot.data = record.data.getD default
  idAtom : slot.idAtom = if id ∈ r.askedIds then some (r.doc.attr id "id") else none
  styleAttr : slot.styleAttr = if id ∈ r.askedStyles then some (declarations S C r.doc id) else none
  selectorFlags : slot.selectorFlags = record.selectorFlags
  dirtyDescendants : slot.dirtyDescendants = record.dirtyDescendants
  pendingChildren : slot.pendingChildren.value = record.pendingChildren

/-- A new slot is that of a node nobody has asked about. -/
theorem Slot.is_new {r : Records δ φ} (hid : id ∉ r.askedIds) (hstyle : id ∉ r.askedStyles) : Slot.Is S C r id {} .new where
  present := rfl
  data := rfl
  idAtom := (if_neg hid).symm
  styleAttr := (if_neg hstyle).symm
  selectorFlags := rfl
  dirtyDescendants := rfl
  pendingChildren := rfl

/-- Asking for other nodes changes nothing in a slot. -/
theorem Slot.Is.congr {r r' : Records δ φ} (h : Slot.Is S C r id record slot) (hdoc : r'.doc = r.doc)
    (hids : id ∈ r'.askedIds ↔ id ∈ r.askedIds) (hstyles : id ∈ r'.askedStyles ↔ id ∈ r.askedStyles) :
    Slot.Is S C r' id record slot where
  present := h.present
  data := h.data
  idAtom := by rw [h.idAtom, hdoc]; simp only [hids]
  styleAttr := by rw [h.styleAttr, hdoc]; simp only [hstyles]
  selectorFlags := h.selectorFlags
  dirtyDescendants := h.dirtyDescendants
  pendingChildren := h.pendingChildren

/-- The slots of a store are the records, and nothing was written to the scratch slot. -/
structure Store.Keeps (S : Stylo υ δ β φ γ) (C : Net.UrlCrate υ ρ) (r : Records δ φ) (store : Store δ β φ) : Prop where
  length : store.slots.length = r.doc.len
  scratch : store.scratch = .new
  owner : store.owner = r.owner
  slot : ∀ id n, r.doc.get id = some n → Slot.Is S C r id (r.record id) (store.slot id)

omit [Inhabited δ] in
/-- Writing a slot changes no other. -/
theorem Store.slot_setSlot (hid : id.index < store.slots.length) (c : NodeId) :
    (store.setSlot id slot).slot c = if c = id then slot else store.slot c := by
  rw [setSlot, if_pos hid]
  by_cases hc : c = id
  · subst hc
    simp [Store.slot, hid]
  · have hne : id.index ≠ c.index := fun h => hc (NodeId.ext_index h.symm)
    simp [Store.slot, List.getElem?_set_ne hne, hc]

/-- The slot of a known node is written: the other slots are still the records. -/
theorem Store.Keeps.setSlot {r r' : Records δ φ} (h : store.Keeps S C r) (hid : r.doc.get id = some n) (hdoc : r'.doc = r.doc)
    (howner : r'.owner = r.owner) (hslot : Slot.Is S C r' id (r'.record id) slot)
    (hothers : ∀ c, c ≠ id → r'.record c = r.record c ∧ (c ∈ r'.askedIds ↔ c ∈ r.askedIds) ∧
      (c ∈ r'.askedStyles ↔ c ∈ r.askedStyles)) : (store.setSlot id slot).Keeps S C r' := by
  have hlt : id.index < store.slots.length := h.length ▸ Tree.index_lt_len hid
  constructor
  case length => rw [Store.setSlot, if_pos hlt, List.length_set, h.length, hdoc]
  case scratch => rw [Store.setSlot, if_pos hlt, h.scratch]
  case owner => rw [Store.setSlot, if_pos hlt, h.owner, howner]
  case slot =>
    intro c m hc
    rw [Store.slot_setSlot hlt]
    by_cases hcid : c = id
    · subst hcid
      rwa [if_pos rfl]
    · obtain ⟨hrecord, hids, hstyles⟩ := hothers c hcid
      rw [if_neg hcid, hrecord]
      exact (h.slot c m (hdoc ▸ hc)).congr hdoc hids hstyles

/-- One record is changed. -/
theorem Store.Keeps.modify (h : store.Keeps S C r) (hid : r.doc.get id = some n) {f : Record δ φ → Record δ φ}
    (hslot : Slot.Is S C r id (f (r.record id)) slot) : (store.setSlot id slot).Keeps S C (r.modify id f) := by
  refine h.setSlot hid rfl rfl ?_ fun c hc => ⟨r.record_modify_of_ne hc f, Iff.rfl, Iff.rfl⟩
  rw [Records.record_modify_self]
  exact hslot.congr rfl Iff.rfl Iff.rfl

/-- What can be read of a known node is the data of its record. -/
theorem Store.Keeps.get_eq (h : store.Keeps S C r) (hid : r.doc.get id = some n) : store.get id = (r.record id).data := by
  have hslot := h.slot id n hid
  rw [Store.get, hslot.present, hslot.data]
  cases (r.record id).data <;> rfl

/-- A filled cell answers what it holds. An empty one is filled, and what the initializer does to the world is done. -/
theorem getOrInit_ite {α ω : Type} {p : Prop} [Decidable p] {a : α} {init : ω → α × ω} {world : ω} (h : (init world).1 = a) :
    getOrInit (if p then some a else none) init world = (a, some a, if p then world else (init world).2) := by
  by_cases hp : p
  · simp [hp, getOrInit]
  · simp [hp, getOrInit, h]

/-- One child less, and never less than none: the subtraction does not saturate where the result counts. -/
theorem Isize.value_left (a : Isize) : ((a.saturatingSub .one).larger .zero).value = max (a.value - 1) 0 := by
  have := a.isIsize
  unfold saturatingSub larger one zero isizeMin isizeMax at *
  split <;> simp only at * <;> omega

/-- Store and records have the same owner. -/
theorem Store.Keeps.assertOwnerThread (h : store.Keeps S C r) (thread : ThreadId) :
    store.assertOwnerThread thread = if thread = r.owner then some () else none := by
  rw [Store.assertOwnerThread, h.owner]

end

/-! ## The pass and the records -/

section

variable {υ ρ δ β φ γ : Type} [Inhabited δ] {S : Stylo υ δ β φ γ} {C : Net.UrlCrate υ ρ} {r r' : Records δ φ}
  {pass pass' : Pass δ β φ} {slot : Slot δ β φ} {thread : ThreadId}

/-- A pass keeps what the records say. -/
structure Pass.Refines (S : Stylo υ δ β φ γ) (C : Net.UrlCrate υ ρ) (kids : NodeId → List NodeId) (done : List NodeId)
    (pass : Pass δ β φ) (r : Records δ φ) : Prop where
  linking : Linking r.doc kids done pass.arena
  store : pass.store.Keeps S C r
  nodes : pass.nodes = r.nodes
  elements : pass.elements = r.elements
  interned : pass.interned = r.askedIds.filter fun id => (r.doc.attr id "id").isSome
  parsed : pass.parsed = r.askedStyles.filter fun id => (declarations S C r.doc id).isSome

namespace Pass.Refines

variable (h : pass.Refines S C kids done r)
include h

/-- Stylo has the same handles on both sides. -/
theorem holds (handle : NodeId ⊕ NodeId) : pass.Holds handle = r.Holds handle := by
  cases handle with
  | inl node => rw [Pass.Holds, Records.Holds, h.nodes]
  | inr element => rw [Pass.Holds, Records.Holds, h.elements]

/-- More handles of nodes are given out. -/
theorem giveNodes (nodes : List NodeId) :
    ({ pass with nodes := nodes ++ pass.nodes } : Pass δ β φ).Refines S C kids done { r with nodes := nodes ++ r.nodes } where
  linking := h.linking
  store := ⟨h.store.length, h.store.scratch, h.store.owner,
    fun id n hid => (h.store.slot id n hid).congr rfl Iff.rfl Iff.rfl⟩
  nodes := congrArg _ h.nodes
  elements := h.elements
  interned := h.interned
  parsed := h.parsed

/-- More handles of elements are given out. -/
theorem giveElements (elements : List NodeId) :
    ({ pass with elements := elements ++ pass.elements } : Pass δ β φ).Refines S C kids done
      { r with elements := elements ++ r.elements } where
  linking := h.linking
  store := ⟨h.store.length, h.store.scratch, h.store.owner,
    fun id n hid => (h.store.slot id n hid).congr rfl Iff.rfl Iff.rfl⟩
  nodes := h.nodes
  elements := congrArg _ h.elements
  interned := h.interned
  parsed := h.parsed

/-- One record is changed, and its slot. -/
theorem modify (hid : r.doc.get id = some n) {f : Record δ φ → Record δ φ} (hslot : Slot.Is S C r id (f (r.record id)) slot) :
    ({ pass with store := pass.store.setSlot id slot } : Pass δ β φ).Refines S C kids done (r.modify id f) where
  linking := h.linking
  store := h.store.modify hid hslot
  nodes := h.nodes
  elements := h.elements
  interned := h.interned
  parsed := h.parsed

/-- A call that only the thread of the pass can make. -/
theorem owned {x : Option (Answer δ β φ × Pass δ β φ)} {answer : Answer δ β φ}
    (hsome : pass.store.assertOwnerThread thread = some () → ∃ pass', x = some (answer, pass') ∧ pass'.Refines S C kids done r')
    (hnone : pass.store.assertOwnerThread thread = none → x = none) :
    Calls.Alike (Pass.Refines S C kids done) x (r.owned thread (answer, r')) := by
  rw [h.store.assertOwnerThread] at hsome hnone
  unfold Records.owned
  by_cases hthread : thread = r.owner
  · obtain ⟨pass', hx, hrefines⟩ := hsome (if_pos hthread)
    rw [hx, if_pos hthread]
    exact .answered hrefines
  · rw [hnone (if_neg hthread), if_neg hthread]
    exact .refused

/-- A call by which only the thread of the pass can change a record, and its slot. -/
theorem ownedModify (hid : r.doc.get id = some n) (slot : Slot δ β φ)
    {f : Record δ φ → Record δ φ} (hslot : Slot.Is S C r id (f (r.record id)) slot) {answer : Answer δ β φ}
    {x : Option (Answer δ β φ × Pass δ β φ)}
    (hx : x = (pass.store.assertOwnerThread thread).map fun _ =>
      (answer, { pass with store := pass.store.setSlot id slot })) :
    Calls.Alike (Pass.Refines S C kids done) x (r.owned thread (answer, r.modify id f)) := by
  refine h.owned (fun hassert => ⟨_, ?_, h.modify hid hslot⟩) fun hassert => ?_
  · rw [hx, hassert, Option.map_some]
  · rw [hx, hassert, Option.map_none]

/-- `id` answers the attribute, and interns it once. -/
theorem idCall (hid : r.doc.get id = some n) (hassert : pass.store.assertOwnerThread thread = some ()) :
    ∃ pass', pass.id thread id = some (r.doc.attr id "id", pass') ∧
      pass'.Refines S C kids done { r with askedIds := addNew r.askedIds id } := by
  have hslot := h.store.slot id n hid
  have hintern : ∀ world, pass.intern id world =
      (r.doc.attr id "id", world ++ if (r.doc.attr id "id").isSome then [id] else []) := by
    intro world
    rw [Pass.intern, h.linking.document]
    cases r.doc.attr id "id" <;> simp
  have hcell := getOrInit_ite (p := id ∈ r.askedIds) (congrArg Prod.fst (hintern pass.interned))
  rw [← hslot.idAtom] at hcell
  have hcall : pass.id thread id = some (r.doc.attr id "id",
      { pass with
        store := pass.store.setSlot id { pass.store.slot id with idAtom := some (r.doc.attr id "id") }
        interned := if id ∈ r.askedIds then pass.interned else (pass.intern id pass.interned).2 }) := by
    simp only [Pass.id, Store.idAtom, hassert, hcell, Option.bind_eq_bind, Option.bind_some, Option.pure_def]
  refine ⟨_, hcall, ?_⟩
  constructor
  case linking => exact h.linking
  case store =>
    refine h.store.setSlot hid rfl rfl ?_ fun c hc => ⟨rfl, mem_addNew_of_ne hc, Iff.rfl⟩
    exact { hslot with idAtom := (if_pos (mem_addNew.2 (.inr rfl))).symm }
  case nodes => exact h.nodes
  case elements => exact h.elements
  case parsed => exact h.parsed
  case interned =>
    show (if id ∈ r.askedIds then pass.interned else (pass.intern id pass.interned).2) = _
    rw [filter_addNew, ← h.interned, hintern]

variable [DecidableEq φ]

/-- `style_attribute` answers the declarations, and parses them once. -/
theorem styleAttribute (hid : r.doc.get id = some n) (hassert : pass.store.assertOwnerThread thread = some ()) :
    ∃ pass', pass.perform S C thread (.styleAttribute id) = some (.block (declarations S C r.doc id), pass') ∧
      pass'.Refines S C kids done { r with askedStyles := addNew r.askedStyles id } := by
  have hslot := h.store.slot id n hid
  have hparse : ∀ world, pass.parse S C id world =
      (declarations S C r.doc id, world ++ if (declarations S C r.doc id).isSome then [id] else []) := by
    intro world
    rw [Pass.parse, declarations, h.linking.document]
    cases r.doc.attr id "style" with
    | none => simp
    | some css =>
      rw [Option.bind_some]
      cases C.parse r.doc.baseUrl <;> simp
  have hcell := getOrInit_ite (p := id ∈ r.askedStyles) (congrArg Prod.fst (hparse pass.parsed))
  rw [← hslot.styleAttr] at hcell
  have hcall : pass.perform S C thread (.styleAttribute id) = some (.block (declarations S C r.doc id),
      { pass with
        store := pass.store.setSlot id { pass.store.slot id with styleAttr := some (declarations S C r.doc id) }
        parsed := if id ∈ r.askedStyles then pass.parsed else (pass.parse S C id pass.parsed).2 }) := by
    simp only [Pass.perform, Store.styleAttr, hassert, hcell, Option.bind_eq_bind, Option.bind_some, Option.pure_def]
  refine ⟨_, hcall, ?_⟩
  constructor
  case linking => exact h.linking
  case store =>
    refine h.store.setSlot hid rfl rfl ?_ fun c hc => ⟨rfl, Iff.rfl, mem_addNew_of_ne hc⟩
    exact { hslot with styleAttr := (if_pos (mem_addNew.2 (.inr rfl))).symm }
  case nodes => exact h.nodes
  case elements => exact h.elements
  case interned => exact h.interned
  case parsed =>
    show (if id ∈ r.askedStyles then pass.parsed else (pass.parse S C id pass.parsed).2) = _
    rw [filter_addNew, ← h.parsed, hparse]

end Pass.Refines

variable [DecidableEq φ]

namespace Pass.Refines

/-- Selector flags go to the slot of a known node. -/
theorem insertFlags (h : pass.Refines S C kids done r) (hid : r.doc.get id = some n)
    (hassert : pass.store.assertOwnerThread thread = some ()) (flags : Finset φ) :
    ∃ store, pass.store.insertSelectorFlags thread id flags = some store ∧
      ({ pass with store } : Pass δ β φ).Refines S C kids done (r.insertFlags flags id) := by
  have hslot := h.store.slot id n hid
  refine ⟨pass.store.setSlot id
    { pass.store.slot id with selectorFlags := (pass.store.slot id).selectorFlags ∪ flags }, ?_, h.modify hid ?_⟩
  · simp only [Store.insertSelectorFlags, hassert, Option.bind_eq_bind, Option.bind_some, Option.pure_def]
  · exact { hslot with selectorFlags := congrArg (· ∪ flags) hslot.selectorFlags }

/-- Flags for known nodes are inserted by the thread of the pass, or there are none. -/
theorem insertNonempty (h : pass.Refines S C kids done r) (thread : ThreadId) (targets : List (NodeId × Finset φ))
    (hknown : ∀ target ∈ targets, ∃ n, r.doc.get target.1 = some n) :
    if (∀ target ∈ targets, target.2 = ∅) ∨ thread = r.owner then
      ∃ store, targets.foldlM (fun store target => store.insertNonempty thread target.1 target.2) pass.store = some store ∧
        ({ pass with store } : Pass δ β φ).Refines S C kids done
          (targets.foldl (fun r target => r.insertFlags target.2 target.1) r)
    else targets.foldlM (fun store target => store.insertNonempty thread target.1 target.2) pass.store = none := by
  induction targets generalizing pass r with
  | nil =>
    rw [if_pos (.inl fun _ h => nomatch h)]
    exact ⟨pass.store, rfl, h⟩
  | cons target targets ih =>
    obtain ⟨n, hn⟩ := hknown target List.mem_cons_self
    have hrest : ∀ other ∈ targets, ∃ n, r.doc.get other.1 = some n := fun other ho => hknown other (List.mem_cons_of_mem _ ho)
    rw [List.foldlM_cons, List.foldl_cons, Store.insertNonempty]
    by_cases hempty : target.2 = ∅
    · -- nothing is inserted
      have hsame : r.insertFlags target.2 target.1 = r := by
        rw [Records.insertFlags, hempty, Records.modify]
        simp
      have hiff : (∀ other ∈ target :: targets, other.2 = ∅) ↔ ∀ other ∈ targets, other.2 = ∅ := by
        simp [hempty]
      simp only [hiff, hsame, if_pos hempty]
      exact ih h hrest
    · have hassert := h.store.assertOwnerThread thread
      have hne : ¬∀ other ∈ target :: targets, other.2 = ∅ := fun hall => hempty (hall target List.mem_cons_self)
      rw [if_neg hempty]
      by_cases hthread : thread = r.owner
      · rw [if_pos hthread] at hassert
        obtain ⟨store, hstore, hrefines⟩ := h.insertFlags hn hassert target.2
        have hnext := ih hrefines hrest
        rw [if_pos (.inr hthread)] at hnext ⊢
        rw [hstore]
        exact hnext
      · rw [if_neg hthread] at hassert
        rw [if_neg (not_or.2 ⟨hne, hthread⟩), Store.insertSelectorFlags, hassert]
        rfl

/-- The flags of an element and those of its parent are inserted one after the other. -/
theorem applySelectorFlags (h : pass.Refines S C kids done r) (t : Tree r.doc kids) (hid : r.doc.get id = some n)
    (flags : Finset φ) : Calls.Alike (Pass.Refines S C kids done) (pass.perform S C thread (.applySelectorFlags id flags))
      (r.perform S C thread (.applySelectorFlags id flags)) := by
  have hperform : pass.perform S C thread (.applySelectorFlags id flags) =
      ((r.flagged S id flags).foldlM (fun (store : Store δ β φ) target => store.insertNonempty thread target.1 target.2) pass.store).map
        fun store => (.unit, { pass with store }) := by
    simp only [perform, Pass.applySelectorFlags, Records.flagged, h.linking.parent t, List.foldlM_cons]
    cases pass.store.insertNonempty thread id (flags ∩ S.forSelf) with
    | none => rfl
    | some store =>
      cases (r.doc.get id).bind Node.parent with
      | none => rfl
      | some parent =>
        simp only [Option.bind_eq_bind, Option.bind_some, Option.toList_some, List.map_cons, List.map_nil, List.foldlM_cons,
          List.foldlM_nil, Option.pure_def, Option.bind_fun_some]
        cases store.insertNonempty thread parent (flags ∩ S.forParent) <;> rfl
  have hknown : ∀ target ∈ r.flagged S id flags, ∃ n, r.doc.get target.1 = some n := by
    intro target htarget
    rcases List.mem_cons.1 htarget with rfl | htarget
    · exact ⟨n, hid⟩
    · obtain ⟨parent, hparent, rfl⟩ := List.mem_map.1 htarget
      have hmem : id ∈ kids parent := (t.bind_parent id parent).1 (Option.mem_toList.1 hparent)
      exact t.get_parent hmem
  have hinsert := h.insertNonempty thread (r.flagged S id flags) hknown
  rw [hperform, Records.perform]
  by_cases hcan : (∀ target ∈ r.flagged S id flags, target.2 = ∅) ∨ thread = r.owner
  · rw [if_pos hcan] at hinsert ⊢
    obtain ⟨store, hstore, hrefines⟩ := hinsert
    rw [hstore]
    exact .answered hrefines
  · rw [if_neg hcan] at hinsert ⊢
    rw [hinsert]
    exact .refused

/-- `ensure_data` creates the data, if there are none. -/
theorem ensureData (h : pass.Refines S C kids done r) (hid : r.doc.get id = some n) (write : δ → δ) :
    Calls.Alike (Pass.Refines S C kids done) (pass.perform S C thread (.ensureData id write))
      (r.perform S C thread (.ensureData id write)) := by
  have hslot := h.store.slot id n hid
  rw [Records.perform, ← hslot.data]
  refine h.ownedModify hid { pass.store.slot id with present := true, data := write (pass.store.slot id).data } ?_ ?_
  · exact { hslot with present := rfl, data := rfl }
  · simp only [Pass.perform, Store.ensureData]
    cases pass.store.assertOwnerThread thread <;> rfl

/-- Clearing data is the same on both sides. -/
theorem clearData (h : pass.Refines S C kids done r) (hid : r.doc.get id = some n) :
    Calls.Alike (Pass.Refines S C kids done) (pass.perform S C thread (.clearData id)) (r.perform S C thread (.clearData id)) := by
  have hslot := h.store.slot id n hid
  refine h.ownedModify hid { pass.store.slot id with present := false, data := default } ?_ ?_
  · exact { hslot with present := rfl, data := rfl }
  · simp only [Pass.perform, Store.clearData]
    cases pass.store.assertOwnerThread thread <;> rfl

/-- `mutate_data` writes the data, if there are any. -/
theorem mutateData (h : pass.Refines S C kids done r) (hid : r.doc.get id = some n) (write : δ → δ) :
    Calls.Alike (Pass.Refines S C kids done) (pass.perform S C thread (.mutateData id write))
      (r.perform S C thread (.mutateData id write)) := by
  have hslot := h.store.slot id n hid
  cases hdata : (r.record id).data with
  | none =>
    -- without data nothing is written
    have hpresent : (pass.store.slot id).present = false := by simp [hslot.present, hdata]
    have hsame : r.modify id (fun record => { record with data := record.data.map write }) = r := by
      rw [Records.modify, hdata, Option.map_none, ← hdata, Function.update_eq_self]
    rw [Records.perform, hsame, hdata]
    refine h.owned (fun hassert => ⟨pass, ?_, h⟩) fun hassert => ?_
    · simp only [Pass.perform, Store.getMut, hassert, hpresent]
      rfl
    · simp only [Pass.perform, Store.getMut, hassert]
      rfl
  | some data =>
    have hpresent : (pass.store.slot id).present = true := by simp [hslot.present, hdata]
    have hstored : (pass.store.slot id).data = data := by simp [hslot.data, hdata]
    rw [Records.perform, hdata]
    refine h.ownedModify hid { pass.store.slot id with data := write data } ?_ ?_
    · exact { hslot with present := by rw [hpresent, hdata]; rfl, data := by rw [hdata]; rfl }
    · simp only [Pass.perform, Store.getMut, hpresent, hstored]
      cases pass.store.assertOwnerThread thread <;> rfl

/-- The mark is set on both sides. -/
theorem setDirtyDescendants (h : pass.Refines S C kids done r) (hid : r.doc.get id = some n) (dirty : Bool) :
    Calls.Alike (Pass.Refines S C kids done) (pass.perform S C thread (.setDirtyDescendants id dirty))
      (r.perform S C thread (.setDirtyDescendants id dirty)) := by
  have hslot := h.store.slot id n hid
  refine h.ownedModify hid { pass.store.slot id with dirtyDescendants := dirty } ?_ ?_
  · exact { hslot with dirtyDescendants := rfl }
  · simp only [Pass.perform, Store.setDirtyDescendants]
    cases pass.store.assertOwnerThread thread <;> rfl

/-- The count is set on both sides. -/
theorem storeChildrenToProcess (h : pass.Refines S C kids done r) (hid : r.doc.get id = some n) (k : Isize) :
    Calls.Alike (Pass.Refines S C kids done) (pass.perform S C thread (.storeChildrenToProcess id k))
      (r.perform S C thread (.storeChildrenToProcess id k)) := by
  have hslot := h.store.slot id n hid
  refine h.ownedModify hid { pass.store.slot id with pendingChildren := k } ?_ ?_
  · exact { hslot with pendingChildren := rfl }
  · simp only [Pass.perform, Store.storeChildrenToProcess]
    cases pass.store.assertOwnerThread thread <;> rfl

/-- The count goes down on both sides. -/
theorem didProcessChild (h : pass.Refines S C kids done r) (hid : r.doc.get id = some n) :
    Calls.Alike (Pass.Refines S C kids done) (pass.perform S C thread (.didProcessChild id))
      (r.perform S C thread (.didProcessChild id)) := by
  have hslot := h.store.slot id n hid
  have hleft := Isize.value_left (pass.store.slot id).pendingChildren
  rw [hslot.pendingChildren] at hleft
  rw [Records.perform, ← hleft]
  refine h.ownedModify hid
    { pass.store.slot id with
      pendingChildren := ((pass.store.slot id).pendingChildren.saturatingSub .one).larger .zero } ?_ ?_
  · exact { hslot with pendingChildren := rfl }
  · simp only [Pass.perform, Store.didProcessChild]
    cases pass.store.assertOwnerThread thread <;> rfl

/-- A call that asks for the `id` of an element interns it once. -/
theorem asksId (h : pass.Refines S C kids done r) (hid : r.doc.get id = some n) {call : Call δ φ}
    (answer : Option StrTendril → Answer δ β φ)
    (hcall : pass.perform S C thread call = (pass.id thread id).map fun x => (answer x.1, x.2)) :
    Calls.Alike (Pass.Refines S C kids done) (pass.perform S C thread call)
      (r.owned thread (answer (r.doc.attr id "id"), { r with askedIds := addNew r.askedIds id })) := by
  refine h.owned (fun hassert => ?_) fun hassert => ?_
  · obtain ⟨pass', hown, hrefines⟩ := h.idCall hid hassert
    exact ⟨pass', by rw [hcall, hown, Option.map_some], hrefines⟩
  · rw [hcall]
    simp only [Pass.id, Store.idAtom, hassert]
    rfl

/-- Each call that Stylo can make is answered by the pass as by the records. -/
theorem perform (h : pass.Refines S C kids done r) (t : Tree r.doc kids) (hr : r.Sound kids) (thread : ThreadId) (call : Call δ φ)
    (hheld : r.Holds call.handle = true) :
    Calls.Alike (Pass.Refines S C kids done) (pass.perform S C thread call) (r.perform S C thread call) := by
  have hid : ∀ id, id ∈ r.elements → ∃ n, r.doc.get id = some n := fun id hmem => (hr.elements id hmem).1.known t
  cases call with
  | follow link node =>
    rw [Pass.perform, h.linking.follow t]
    exact .answered (h.giveNodes _)
  | asElement node =>
    rw [Pass.perform, h.linking.asElement]
    exact .answered (h.giveElements _)
  | asNode element => exact .answered (h.giveNodes [element])
  | followElement link element =>
    obtain ⟨n, hn⟩ := hid element (of_decide_eq_true hheld)
    rw [Pass.perform, h.linking.followElement t hn]
    exact .answered (h.giveElements _)
  | traversalChildren element =>
    rw [Pass.perform, h.linking.children t, h.linking.document]
    exact .answered (h.giveNodes _)
  | id element =>
    obtain ⟨n, hn⟩ := hid element (of_decide_eq_true hheld)
    refine h.asksId hn .atom ?_
    rw [Pass.perform]
    cases pass.id thread element <;> rfl
  | hasId element own caseSensitivity =>
    obtain ⟨n, hn⟩ := hid element (of_decide_eq_true hheld)
    refine h.asksId hn (fun attr => .bool (attr.any fun attr => S.eqAtom caseSensitivity attr own)) ?_
    rw [Pass.perform]
    cases pass.id thread element <;> rfl
  | styleAttribute element =>
    obtain ⟨n, hn⟩ := hid element (of_decide_eq_true hheld)
    refine h.owned (fun hassert => h.styleAttribute hn hassert) fun hassert => ?_
    simp only [Pass.perform, Store.styleAttr, hassert]
    rfl
  | applySelectorFlags element flags =>
    obtain ⟨n, hn⟩ := hid element (of_decide_eq_true hheld)
    exact h.applySelectorFlags t hn flags
  | hasSelectorFlags element flags =>
    obtain ⟨n, hn⟩ := hid element (of_decide_eq_true hheld)
    rw [Pass.perform, Store.selectorFlags, (h.store.slot element n hn).selectorFlags]
    exact .answered h
  | relativeSelectorSearchDirection element =>
    obtain ⟨n, hn⟩ := hid element (of_decide_eq_true hheld)
    rw [Pass.perform, Store.selectorFlags, (h.store.slot element n hn).selectorFlags]
    exact .answered h
  | ensureData element write =>
    obtain ⟨n, hn⟩ := hid element (of_decide_eq_true hheld)
    exact h.ensureData hn write
  | clearData element =>
    obtain ⟨n, hn⟩ := hid element (of_decide_eq_true hheld)
    exact h.clearData hn
  | hasData element =>
    obtain ⟨n, hn⟩ := hid element (of_decide_eq_true hheld)
    rw [Pass.perform, Store.hasData, (h.store.slot element n hn).present]
    exact .answered h
  | borrowData element =>
    obtain ⟨n, hn⟩ := hid element (of_decide_eq_true hheld)
    rw [Pass.perform, h.store.get_eq hn]
    exact .answered h
  | mutateData element write =>
    obtain ⟨n, hn⟩ := hid element (of_decide_eq_true hheld)
    exact h.mutateData hn write
  | setDirtyDescendants element dirty =>
    obtain ⟨n, hn⟩ := hid element (of_decide_eq_true hheld)
    exact h.setDirtyDescendants hn dirty
  | hasDirtyDescendants element =>
    obtain ⟨n, hn⟩ := hid element (of_decide_eq_true hheld)
    rw [Pass.perform, Store.hasDirtyDescendants, (h.store.slot element n hn).dirtyDescendants]
    exact .answered h
  | storeChildrenToProcess element k =>
    obtain ⟨n, hn⟩ := hid element (of_decide_eq_true hheld)
    exact h.storeChildrenToProcess hn k
  | didProcessChild element =>
    obtain ⟨n, hn⟩ := hid element (of_decide_eq_true hheld)
    exact h.didProcessChild hn

end Pass.Refines

/-- A call of a pass is answered as by the records, which stay those of the document. -/
theorem Pass.call_alike (t : Tree doc kids) (h : pass.Refines S C kids done r) (hdoc : r.doc = doc) (hr : r.Sound kids)
    (k : ThreadId × Call δ φ) :
    Calls.Alike (fun p r' => p.Refines S C kids done r' ∧ r'.doc = doc ∧ r'.Sound kids) (pass.call S C k) (r.call S C k) := by
  have ht : Tree r.doc kids := hdoc.symm ▸ t
  rw [Pass.call, Records.call, h.holds]
  by_cases hheld : r.Holds k.2.handle = true
  · rw [if_pos hheld, if_pos hheld]
    refine (h.perform ht hr k.1 k.2 hheld).and fun a r' hperform => ?_
    have hstep := Records.step_of_perform ht hperform
    exact ⟨hstep.doc.trans hdoc, hr.step ht hheld hstep⟩
  · rw [if_neg hheld, if_neg hheld]
    exact .refused

/-! ## Borrows that last -/

/-- A session keeps what the records say. What is borrowed is there, and of an element that Stylo has a handle of. -/
structure Session.Refines (S : Stylo υ δ β φ γ) (C : Net.UrlCrate υ ρ) (kids : NodeId → List NodeId) (done : List NodeId)
    (doc : Document) (owner : ThreadId) (session : Session δ β φ) (r : Records δ φ) : Prop where
  pass : session.pass.Refines S C kids done r
  doc : r.doc = doc
  owner : r.owner = owner
  sound : r.Sound kids
  borrows : ∀ b ∈ session.borrows, b.1 ∈ r.elements ∧ (r.record b.1).data.isSome = true

omit [Inhabited δ] [DecidableEq φ] in
/-- A guard is of the element that the call is made through. -/
theorem Call.handle_of_guard {call : Call δ φ} {store : Store δ β φ} {b : NodeId × Access} (h : call.guard store = some b) :
    call.handle = .inr b.1 := by
  cases call with
  | ensureData element write => exact Option.some.inj h ▸ rfl
  | borrowData element => exact Option.some.inj (Option.ite_none_right_eq_some.1 h).2 ▸ rfl
  | mutateData element write => exact Option.some.inj (Option.ite_none_right_eq_some.1 h).2 ▸ rfl
  | _ => cases h

omit [DecidableEq φ] in
/-- Where a call leaves a guard, it leaves data. -/
theorem Call.isSome_onData_of_guard {call : Call δ φ} {store : Store δ β φ} {b : NodeId × Access} {data : Option δ}
    (h : call.guard store = some b) (hdata : store.hasData b.1 = data.isSome) : (call.onData b.1 data).isSome = true := by
  cases call with
  | ensureData element write =>
    obtain rfl := Option.some.inj h
    rw [Call.onData, if_pos rfl]
    rfl
  | borrowData element =>
    obtain ⟨hpresent, heq⟩ := Option.ite_none_right_eq_some.1 h
    obtain rfl := Option.some.inj heq
    exact hdata.symm.trans hpresent
  | mutateData element write =>
    obtain ⟨hpresent, heq⟩ := Option.ite_none_right_eq_some.1 h
    obtain rfl := Option.some.inj heq
    rw [Call.onData, if_pos rfl, Option.isSome_map]
    exact hdata.symm.trans hpresent
  | _ => cases h

omit [Inhabited δ] [DecidableEq φ] in
/-- The borrows of an element that have not ended are those of its data. -/
theorem Session.mem_live {session : Session δ β φ} {element : NodeId} {access : Access} :
    access ∈ session.live element ↔ (element, access) ∈ session.borrows := by
  simp only [Session.live, List.mem_map, List.mem_filter, decide_eq_true_eq]
  constructor
  · rintro ⟨b, ⟨hb, rfl⟩, rfl⟩
    exact hb
  · intro h
    exact ⟨_, ⟨h, rfl⟩, rfl⟩

omit [Inhabited δ] [DecidableEq φ] in
/-- The tracker lets a borrow through exactly if all borrows of the data, it among them, are to read, or there is no other one. -/
theorem Session.free_iff (law : S.Tracks) {session : Session δ β φ} {b : NodeId × Access} :
    session.Free S b = true ↔ ∀ access, (b.1, access) ∈ session.borrows → b.2 = .shared ∧ access = .shared := by
  obtain ⟨element, wanted⟩ := b
  cases wanted with
  | shared =>
    rw [Session.Free, law.shared, Session.mem_live]
    constructor
    · intro h access hmem
      cases access with
      | shared => exact ⟨rfl, rfl⟩
      | exclusive => exact absurd hmem h
    · intro h hmem
      cases (h _ hmem).2
  | exclusive =>
    rw [Session.Free, law.exclusive, List.eq_nil_iff_forall_not_mem]
    constructor
    · intro h access hmem
      exact absurd (Session.mem_live.2 hmem) (h access)
    · intro h access hmem
      cases (h access (Session.mem_live.1 hmem)).1

namespace Session.Refines

variable {owner : ThreadId} {session session' : Session δ β φ} {a : Option (Answer δ β φ)}

/-- A call that the tracker lets through. -/
theorem call (law : S.Tracks) (t : Tree doc kids) (h : session.Refines S C kids done doc owner r) {k : Call δ φ}
    (hstep : session.step S C (.call thread k) = some (a, session')) :
    ∃ answer r', a = some answer ∧ r.call S C (thread, k) = some (answer, r') ∧ session'.Refines S C kids done doc owner r' := by
  obtain ⟨hfree, hdo⟩ := Option.ite_none_right_eq_some.1 hstep
  obtain ⟨⟨answer, pass'⟩, hcall, hreturn⟩ := Option.bind_eq_some_iff.1 hdo
  obtain ⟨rfl, rfl⟩ := Prod.mk.inj (Option.some.inj hreturn)
  have halike := Pass.call_alike t h.pass h.doc h.sound (thread, k)
  rw [hcall] at halike
  obtain ⟨r', hrecords, hrefines, hdoc, hsound⟩ := halike.exists_of_some
  obtain ⟨hheld, hperform⟩ := Option.ite_none_right_eq_some.1 hrecords
  have ht : Tree r.doc kids := h.doc.symm ▸ t
  have hchange := Records.step_of_perform ht hperform
  refine ⟨answer, r', rfl, hrecords, hrefines, hdoc, hchange.owner.trans h.owner, hsound, fun b hb => ?_⟩
  rcases List.mem_append.1 hb with hb | hb
  · -- the borrow that the call leaves
    have hguard := Option.mem_toList.1 hb
    have hown := k.handle_of_guard hguard
    have hmem : b.1 ∈ r.elements := of_decide_eq_true (hown ▸ hheld : r.Holds (.inr b.1) = true)
    obtain ⟨n, hn⟩ := (h.sound.elements b.1 hmem).1.known ht
    refine ⟨hchange.kept b.1 hmem, ?_⟩
    rw [hchange.data]
    exact Call.isSome_onData_of_guard hguard (h.pass.store.slot b.1 n hn).present
  · -- one that was there before: its data were not cleared
    obtain ⟨hmem, hdata⟩ := h.borrows b hb
    refine ⟨hchange.kept b.1 hmem, ?_⟩
    rw [hchange.data]
    refine Call.isSome_onData_of_ne hdata ?_
    rintro rfl
    cases ((Session.free_iff law).1 hfree b.2 hb).1

/-- A write through a guard is a change of what is there. -/
theorem written (t : Tree doc kids) (h : session.Refines S C kids done doc owner r) {element : NodeId} {write : δ → δ}
    (hstep : session.step S C (.written element write) = some (a, session')) :
    ∃ answer r', a = some answer ∧ r.call S C (owner, .mutateData element write) = some (answer, r') ∧
      session'.Refines S C kids done doc owner r' := by
  obtain ⟨hmem, hwrite⟩ := Option.ite_none_right_eq_some.1 hstep
  obtain ⟨rfl, rfl⟩ := Prod.mk.inj (Option.some.inj hwrite)
  obtain ⟨hheld, hdata⟩ := h.borrows _ hmem
  have ht : Tree r.doc kids := h.doc.symm ▸ t
  obtain ⟨n, hn⟩ := (h.sound.elements element hheld).1.known ht
  have hpresent : (session.pass.store.slot element).present = true := (h.pass.store.slot element n hn).present.trans hdata
  have hassert := h.pass.store.assertOwnerThread owner
  rw [if_pos h.owner.symm] at hassert
  have hperform : session.pass.perform S C owner (.mutateData element write) =
      some (.data (some (session.pass.store.slot element).data), { session.pass with
        store := session.pass.store.setSlot element
          { session.pass.store.slot element with data := write (session.pass.store.slot element).data } }) := by
    simp only [Pass.perform, Store.getMut, hassert, hpresent]
    rfl
  have hcall : session.pass.call S C (owner, .mutateData element write) = _ :=
    (if_pos (decide_eq_true (h.pass.elements ▸ hheld))).trans hperform
  have halike := Pass.call_alike t h.pass h.doc h.sound (owner, .mutateData element write)
  rw [hcall] at halike
  obtain ⟨r', hrecords, hrefines, hdoc, hsound⟩ := halike.exists_of_some
  have hchange := Records.step_of_perform ht (Option.ite_none_right_eq_some.1 hrecords).2
  refine ⟨_, r', rfl, hrecords, hrefines, hdoc, hchange.owner.trans h.owner, hsound, fun b hb => ?_⟩
  obtain ⟨hkept, hthere⟩ := h.borrows b hb
  refine ⟨hchange.kept b.1 hkept, ?_⟩
  rw [hchange.data]
  exact Call.isSome_onData_of_ne hthere nofun

/-- A borrow ends. -/
theorem dropped (h : session.Refines S C kids done doc owner r) {element : NodeId} {access : Access}
    (hstep : session.step S C (.dropped element access) = some (a, session')) :
    a = none ∧ session'.Refines S C kids done doc owner r := by
  obtain ⟨-, hdrop⟩ := Option.ite_none_right_eq_some.1 hstep
  obtain ⟨rfl, rfl⟩ := Prod.mk.inj (Option.some.inj hdrop)
  exact ⟨rfl, { h with borrows := fun b hb => h.borrows b (List.mem_of_mem_erase hb) }⟩

end Session.Refines

end

end Style

end ChromeLight
