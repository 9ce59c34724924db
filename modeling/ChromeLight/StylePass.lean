import ChromeLight.Handle
import ChromeLight.Lib.Calls
import ChromeLight.Sheets
import Mathlib.Data.Finset.Basic

/-!
# A style pass

`crates/style`: Stylo styles a document through handles. It starts with a handle of the root element, gets others from those it has,
and asks of an element what it matches selectors with, or keeps there what it has found (`Call`). Most answers are read off the
document; the others are kept in the store, which has a slot for each node. `Pass.call` is what the methods of the handles do, from
the first handle to the styles that are lifted out of the store at the end (`cascadeDocument`).

Only the thread that made a store may change it. A call of a pass that borrows an element's data is over with what the borrower writes
there at once. The guards that the source hands out may live on: then it is a session, which keeps the borrows for the tracker of a
debug build to judge (`Session.step`). The tracker is Stylo's, a parameter like the rest of it.
-/

namespace ChromeLight

namespace Style

/-! ## The store -/

/-- A thread, by number. -/
abbrev ThreadId := Nat

/-- The least `isize`. -/
def isizeMin : Int := -9223372036854775808

/-- The greatest `isize`. -/
def isizeMax : Int := 9223372036854775807

/-- An `isize`. -/
structure Isize where
  value : Int
  isIsize : isizeMin ≤ value ∧ value ≤ isizeMax
deriving DecidableEq, Repr

namespace Isize

/-- No children left. -/
def zero : Isize := ⟨0, by decide⟩

/-- One child. -/
def one : Isize := ⟨1, by decide⟩

/-- The difference, saturated. -/
def saturatingSub (a b : Isize) : Isize := ⟨max isizeMin (min isizeMax (a.value - b.value)), by unfold isizeMin isizeMax; omega⟩

/-- The larger one of two. -/
def larger (a b : Isize) : Isize := if a.value ≤ b.value then b else a

end Isize

/-- `OnceCell::get_or_init`: what the cell holds, and the cell. An empty one is initialized, which may change the world. -/
def getOrInit {α ω : Type} (cell : Option α) (init : ω → α × ω) (world : ω) : α × Option α × ω :=
  match cell with
  | some a => (a, some a, world)
  | none =>
    let (a, world) := init world
    (a, some a, world)

/-- What a pass keeps of one node. -/
structure Slot (δ β φ : Type) where
  present : Bool
  data : δ
  /-- The `id` attribute, once it was asked for. -/
  idAtom : Option (Option StrTendril)
  /-- The declarations of the `style` attribute, once they were asked for. -/
  styleAttr : Option (Option β)
  selectorFlags : Finset φ
  dirtyDescendants : Bool
  pendingChildren : Isize

section

variable {δ β φ ω : Type} [Inhabited δ]

/-- The slot before the pass. -/
def Slot.new : Slot δ β φ where
  present := false
  data := default
  idAtom := none
  styleAttr := none
  selectorFlags := ∅
  dirtyDescendants := false
  pendingChildren := .zero

/-- The slots of a pass. The scratch slot stands for the nodes that have none. -/
structure Store (δ β φ : Type) where
  slots : List (Slot δ β φ)
  scratch : Slot δ β φ
  owner : ThreadId

namespace Store

/-- A store with a slot for each node. -/
def new (len : Nat) (owner : ThreadId) : Store δ β φ := { slots := List.replicate len .new, scratch := .new, owner }

/-- The store as the handles know it. -/
def styleStore (store : Store δ β φ) : StyleStore := ⟨store.slots.length⟩

variable (store : Store δ β φ) (thread : ThreadId) (id : NodeId)

/-- Only the thread that made the store may write to it. -/
def assertOwnerThread : Option Unit := if thread = store.owner then some () else none

/-- The slot of a node, or the scratch slot. -/
def slot : Slot δ β φ := (store.slots[id.index]?).getD store.scratch

/-- Write through a slot. -/
def setSlot (slot : Slot δ β φ) : Store δ β φ :=
  if id.index < store.slots.length then { store with slots := store.slots.set id.index slot } else { store with scratch := slot }

/-- The data as the guard shows them, and the store when the borrower has written and dropped the guard. -/
def ensureData (write : δ → δ) : Option (δ × Store δ β φ) := do
  store.assertOwnerThread thread
  let slot := store.slot id
  return (slot.data, store.setSlot id { slot with present := true, data := write slot.data })

/-- Forget the data of a node. -/
def clearData : Option (Store δ β φ) := do
  store.assertOwnerThread thread
  return store.setSlot id { store.slot id with present := false, data := default }

/-- Whether a node has data. -/
def hasData : Bool := (store.slot id).present

/-- The data as the guard shows them. -/
def get : Option δ := if (store.slot id).present then some (store.slot id).data else none

/-- The data as the guard shows them, and the store when the borrower has written and dropped the guard. -/
def getMut (write : δ → δ) : Option (Option δ × Store δ β φ) := do
  store.assertOwnerThread thread
  let slot := store.slot id
  return if slot.present then (some slot.data, store.setSlot id { slot with data := write slot.data }) else (none, store)

/-- The `id` attribute, interned when it is first asked for. -/
def idAtom (intern : ω → Option StrTendril × ω) (world : ω) : Option (Option StrTendril × Store δ β φ × ω) := do
  store.assertOwnerThread thread
  let (atom, cell, world) := getOrInit (store.slot id).idAtom intern world
  return (atom, store.setSlot id { store.slot id with idAtom := cell }, world)

/-- The `style` attribute, parsed when it is first asked for. -/
def styleAttr (parse : ω → Option β × ω) (world : ω) : Option (Option β × Store δ β φ × ω) := do
  store.assertOwnerThread thread
  let (block, cell, world) := getOrInit (store.slot id).styleAttr parse world
  return (block, store.setSlot id { store.slot id with styleAttr := cell }, world)

/-- The flags that selectors have left. -/
def selectorFlags : Finset φ := (store.slot id).selectorFlags

/-- Leave more flags. -/
def insertSelectorFlags [DecidableEq φ] (flags : Finset φ) : Option (Store δ β φ) := do
  store.assertOwnerThread thread
  let slot := store.slot id
  return store.setSlot id { slot with selectorFlags := slot.selectorFlags ∪ flags }

/-- Insert flags, if there are any. -/
def insertNonempty [DecidableEq φ] (flags : Finset φ) : Option (Store δ β φ) :=
  if flags = ∅ then some store else store.insertSelectorFlags thread id flags

/-- Whether something below has to be styled. -/
def hasDirtyDescendants : Bool := (store.slot id).dirtyDescendants

/-- Say whether something below has to be styled. -/
def setDirtyDescendants (dirty : Bool) : Option (Store δ β φ) := do
  store.assertOwnerThread thread
  return store.setSlot id { store.slot id with dirtyDescendants := dirty }

/-- How many children are still to come. -/
def storeChildrenToProcess (n : Isize) : Option (Store δ β φ) := do
  store.assertOwnerThread thread
  return store.setSlot id { store.slot id with pendingChildren := n }

/-- One child is done: how many are left. -/
def didProcessChild : Option (Isize × Store δ β φ) := do
  store.assertOwnerThread thread
  let slot := store.slot id
  let left := (slot.pendingChildren.saturatingSub .one).larger .zero
  return (left, store.setSlot id { slot with pendingChildren := left })

end Store

end

/-! ## The handles -/

/-- How identifiers are compared. -/
inductive CaseSensitivity where
  | caseSensitive
  | asciiCaseInsensitive
deriving DecidableEq, Repr

/-- What a guard may do to the data. -/
inductive Access where
  | shared
  | exclusive
deriving DecidableEq, Repr

/-- What the pass uses of Stylo and of `selectors`. -/
structure Stylo (υ δ β φ γ : Type) where
  eqAtom : CaseSensitivity → StrTendril → StrTendril → Bool
  /-- Whether `LayoutIterator` keeps a node, of which `is_element` and `is_text_node` are known. -/
  layoutKeeps : Bool → Bool → Bool
  parseStyleAttribute : StrTendril → υ → QuirksMode → β
  /-- The flags that `for_self` leaves. -/
  forSelf : Finset φ
  /-- The flags that `for_parent` leaves. -/
  forParent : Finset φ
  /-- The directions of the search for relative selectors, in the order in which they are tried. -/
  directions : List (Finset φ)
  /-- Insert the hint to restyle the subtree. -/
  insertRestyleSubtree : δ → δ
  getPrimary : δ → Option γ
  /-- Whether the borrow tracker of `ElementDataWrapper` lets data be borrowed beside the borrows of them that have not ended. -/
  admits : List Access → Access → Bool

/-- The tracker is one of readers and writers: there is one writer and nobody else, or any number of readers. -/
structure Stylo.Tracks {υ δ β φ γ : Type} (S : Stylo υ δ β φ γ) : Prop where
  shared : ∀ live, S.admits live .shared = true ↔ .exclusive ∉ live
  exclusive : ∀ live, S.admits live .exclusive = true ↔ live = []

/-- Whether a node is text. -/
def isText (doc : Document) (id : NodeId) : Bool :=
  match (doc.get id).map Node.kind with
  | some (.text _) => true
  | _ => false

namespace NodeArena

variable (arena : NodeArena) (handle : NodeId)

/-- The parent of a node. -/
def parent : Option NodeId := ((arena.doc.get handle).bind (·.parent)).bind arena.withId

/-- The last child of a node. -/
def lastChild : Option NodeId := ((arena.doc.get handle).bind (·.lastChild)).bind arena.withId

/-- The handles of the children, up to one that has none. -/
def children : List NodeId := (((arena.doc.children handle).map arena.withId).takeWhile Option.isSome).reduceOption

/-- The node, if it is an element. -/
def asElement : Option NodeId := if isElement arena.doc handle then some handle else none

/-- The handle of an element, if the node is one. -/
def element (id : NodeId) : Option NodeId × NodeArena :=
  let (handle, arena) := arena.node id
  (handle.bind arena.asElement, arena)

end NodeArena

/-- Where a handle of a node leads. -/
inductive NodeLink where
  | parentNode
  | firstChild
  | lastChild
  | prevSibling
  | nextSibling
deriving DecidableEq, Repr

/-- The node at the end of a link. -/
def NodeArena.follow (arena : NodeArena) : NodeLink → NodeId → Option NodeId
  | .parentNode => arena.parent
  | .firstChild => arena.firstChild
  | .lastChild => arena.lastChild
  | .prevSibling => arena.prevSibling
  | .nextSibling => arena.nextSibling

/-- Where a handle of an element leads. -/
inductive ElementLink where
  | parentElement
  | prevSiblingElement
  | nextSiblingElement
  | firstElementChild
deriving DecidableEq, Repr

/-- The element at the end of a link. -/
def NodeArena.followElement (arena : NodeArena) : ElementLink → NodeId → Option NodeId
  | .parentElement => fun element => (arena.parent element).bind arena.asElement
  | .prevSiblingElement => arena.prevSiblingElement
  | .nextSiblingElement => arena.nextSiblingElement
  | .firstElementChild => arena.firstElementChild

/-- The calls through a handle: those that lead to other handles, and those that come to the store. -/
inductive Call (δ φ : Type) where
  | follow (link : NodeLink) (node : NodeId)
  | asElement (node : NodeId)
  | asNode (element : NodeId)
  | followElement (link : ElementLink) (element : NodeId)
  | traversalChildren (element : NodeId)
  | id (element : NodeId)
  | hasId (element : NodeId) (id : StrTendril) (caseSensitivity : CaseSensitivity)
  | styleAttribute (element : NodeId)
  | applySelectorFlags (element : NodeId) (flags : Finset φ)
  | hasSelectorFlags (element : NodeId) (flags : Finset φ)
  | relativeSelectorSearchDirection (element : NodeId)
  | ensureData (element : NodeId) (write : δ → δ)
  | clearData (element : NodeId)
  | hasData (element : NodeId)
  | borrowData (element : NodeId)
  | mutateData (element : NodeId) (write : δ → δ)
  | setDirtyDescendants (element : NodeId) (dirty : Bool)
  | hasDirtyDescendants (element : NodeId)
  | storeChildrenToProcess (element : NodeId) (n : Isize)
  | didProcessChild (element : NodeId)

/-- What a call answers. -/
inductive Answer (δ β φ : Type) where
  | unit
  | handle (there : Option NodeId)
  | handles (nodes : List NodeId)
  | atom (id : Option StrTendril)
  | block (declarations : Option β)
  | bool (b : Bool)
  | flags (flags : Finset φ)
  | data (data : Option δ)
  | count (n : Int)

/-- The handle that a call is made through: of a node, or of an element. -/
def Call.handle {δ φ : Type} : Call δ φ → NodeId ⊕ NodeId
  | .follow _ node | .asElement node => .inl node
  | .asNode e | .followElement _ e | .traversalChildren e | .id e | .hasId e _ _ | .styleAttribute e | .applySelectorFlags e _
  | .hasSelectorFlags e _ | .relativeSelectorSearchDirection e | .ensureData e _ | .clearData e | .hasData e | .borrowData e
  | .mutateData e _ | .setDirtyDescendants e _ | .hasDirtyDescendants e | .storeChildrenToProcess e _ | .didProcessChild e =>
    .inr e

/-! ## The pass -/

/-- A pass: its handles and its store, the handles Stylo was given, and of which nodes an `id` was interned and a `style` parsed. -/
structure Pass (δ β φ : Type) where
  arena : NodeArena
  store : Store δ β φ
  nodes : List NodeId
  elements : List NodeId
  interned : List NodeId
  parsed : List NodeId

section

variable {υ ρ δ β φ γ : Type} [Inhabited δ] [DecidableEq φ] (S : Stylo υ δ β φ γ) (C : Net.UrlCrate υ ρ)

/-- The first direction of which all flags are there. -/
def Stylo.searchDirection (flags : Finset φ) : Finset φ := (S.directions.find? (· ⊆ flags)).getD ∅

namespace Pass

variable (pass : Pass δ β φ) (thread : ThreadId) (element : NodeId)

/-- Whether Stylo was given a handle. -/
def Holds (pass : Pass δ β φ) : NodeId ⊕ NodeId → Bool
  | .inl node => node ∈ pass.nodes
  | .inr element => element ∈ pass.elements

/-- The interning of an `id`. -/
def intern (interned : List NodeId) : Option StrTendril × List NodeId :=
  match pass.arena.doc.attr element "id" with
  | none => (none, interned)
  | some id => (some id, interned ++ [element])

/-- The parsing of a `style`. Without a base URL it is not parsed. -/
def parse (parsed : List NodeId) : Option β × List NodeId :=
  match pass.arena.doc.attr element "style" with
  | none => (none, parsed)
  | some css =>
    match C.parse pass.arena.doc.baseUrl with
    | .error _ => (none, parsed)
    | .ok base => (some (S.parseStyleAttribute css base pass.arena.doc.quirks), parsed ++ [element])

/-- `TElement::id`. -/
def id : Option (Option StrTendril × Pass δ β φ) := do
  let (atom, store, interned) ← pass.store.idAtom thread element (pass.intern element) pass.interned
  return (atom, { pass with store, interned })

/-- The flags for an element go to its slot, those for its parent to that of its parent. -/
def applySelectorFlags (flags : Finset φ) : Option (Pass δ β φ) := do
  let store ← pass.store.insertNonempty thread element (flags ∩ S.forSelf)
  let store ← match pass.arena.parent element with
    | none => some store
    | some parent => store.insertNonempty thread parent (flags ∩ S.forParent)
  return { pass with store }

/-- A call through a handle that Stylo has. -/
def perform : Call δ φ → Option (Answer δ β φ × Pass δ β φ)
  | .follow link node =>
    let there := pass.arena.follow link node
    some (.handle there, { pass with nodes := there.toList ++ pass.nodes })
  | .asElement node =>
    let there := pass.arena.asElement node
    some (.handle there, { pass with elements := there.toList ++ pass.elements })
  | .asNode element => some (.handle (some element), { pass with nodes := element :: pass.nodes })
  | .followElement link element =>
    let there := pass.arena.followElement link element
    some (.handle there, { pass with elements := there.toList ++ pass.elements })
  | .traversalChildren element =>
    let nodes := (pass.arena.children element).filter fun child =>
      S.layoutKeeps (isElement pass.arena.doc child) (isText pass.arena.doc child)
    some (.handles nodes, { pass with nodes := nodes ++ pass.nodes })
  | .id element => do
    let (own, pass) ← pass.id thread element
    return (.atom own, pass)
  | .hasId element id caseSensitivity => do
    let (own, pass) ← pass.id thread element
    return (.bool (own.any fun own => S.eqAtom caseSensitivity own id), pass)
  | .styleAttribute element => do
    let (block, store, parsed) ← pass.store.styleAttr thread element (pass.parse S C element) pass.parsed
    return (.block block, { pass with store, parsed })
  | .applySelectorFlags element flags => do
    let pass ← pass.applySelectorFlags S thread element flags
    return (.unit, pass)
  | .hasSelectorFlags element flags => some (.bool (flags ⊆ pass.store.selectorFlags element), pass)
  | .relativeSelectorSearchDirection element => some (.flags (S.searchDirection (pass.store.selectorFlags element)), pass)
  | .ensureData element write => do
    let (data, store) ← pass.store.ensureData thread element write
    return (.data (some data), { pass with store })
  | .clearData element => do
    let store ← pass.store.clearData thread element
    return (.unit, { pass with store })
  | .hasData element => some (.bool (pass.store.hasData element), pass)
  | .borrowData element => some (.data (pass.store.get element), pass)
  | .mutateData element write => do
    let (data, store) ← pass.store.getMut thread element write
    return (.data data, { pass with store })
  | .setDirtyDescendants element dirty => do
    let store ← pass.store.setDirtyDescendants thread element dirty
    return (.unit, { pass with store })
  | .hasDirtyDescendants element => some (.bool (pass.store.hasDirtyDescendants element), pass)
  | .storeChildrenToProcess element n => do
    let store ← pass.store.storeChildrenToProcess thread element n
    return (.unit, { pass with store })
  | .didProcessChild element => do
    let (left, store) ← pass.store.didProcessChild thread element
    return (.count left.value, { pass with store })

/-- A call from a thread. None can be made through a handle that Stylo was not given. -/
def call (pass : Pass δ β φ) (k : ThreadId × Call δ φ) : Option (Answer δ β φ × Pass δ β φ) :=
  if pass.Holds k.2.handle then pass.perform S C k.1 k.2 else none

end Pass

/-! ## Borrows that last -/

/-- What happens while the guards of a pass live. -/
inductive Event (δ φ : Type) where
  | call (thread : ThreadId) (call : Call δ φ)
  /-- Data are written through a guard. -/
  | written (element : NodeId) (write : δ → δ)
  /-- A guard is dropped. -/
  | dropped (element : NodeId) (access : Access)

/-- A pass, with the borrows of the data of its elements that have not ended. -/
structure Session (δ β φ : Type) where
  pass : Pass δ β φ
  borrows : List (NodeId × Access)

/-- How a call borrows the data of its element. What is not there is not borrowed. -/
def Call.borrow (store : Store δ β φ) : Call δ φ → Option (NodeId × Access)
  | .ensureData element _ | .clearData element => some (element, .exclusive)
  | .borrowData element => if store.hasData element then some (element, .shared) else none
  | .mutateData element _ => if store.hasData element then some (element, .exclusive) else none
  | _ => none

/-- The borrow that a call leaves: `clear_data` hands out no guard. -/
def Call.guard (store : Store δ β φ) : Call δ φ → Option (NodeId × Access)
  | .clearData _ => none
  | call => call.borrow store

namespace Session

variable (session : Session δ β φ)

/-- The borrows of an element's data that have not ended. -/
def live (element : NodeId) : List Access := (session.borrows.filter fun b => b.1 = element).map Prod.snd

/-- The tracker lets a borrow through. -/
def Free (b : NodeId × Access) : Bool := S.admits (session.live b.1) b.2

/-- What happens in a debug build, whose tracker panics where borrows overlap. A call answers; a write shows what was there before. -/
def step : Event δ φ → Option (Option (Answer δ β φ) × Session δ β φ)
  | .call thread call =>
    if (call.borrow session.pass.store).all (session.Free S) then do
      let (answer, pass) ← session.pass.call S C (thread, call)
      return (some answer, { pass, borrows := (call.guard session.pass.store).toList ++ session.borrows })
    else none
  | .written element write =>
    if (element, .exclusive) ∈ session.borrows then
      let slot := session.pass.store.slot element
      let store := session.pass.store.setSlot element { slot with data := write slot.data }
      some (some (.data (some slot.data)), { session with pass := { session.pass with store } })
    else none
  | .dropped element access =>
    if (element, access) ∈ session.borrows then
      some (none, { session with borrows := session.borrows.erase (element, access) })
    else none

end Session

/-! ## The whole pass -/

/-- The first element below the root. -/
def rootElement (doc : Document) : Option NodeId := (doc.children doc.root).find? fun id => (doc.element id).isSome

/-- The pass as Stylo finds it: the root element is to be restyled with all that is below it. Without one there is no pass. -/
def Pass.start (doc : Document) (owner : ThreadId) : Option (Option (Pass δ β φ)) :=
  match rootElement doc with
  | none => some none
  | some root => do
    let store := Store.new doc.len owner
    let arena ← NodeArena.new doc store.styleStore
    match arena.element root with
    | (none, _) => return none
    | (some handle, arena) => do
      let (_, store) ← store.ensureData owner root S.insertRestyleSubtree
      return some { arena, store, nodes := [], elements := [handle], interned := [], parsed := [] }

/-- Lift the style of a node out of the store, if it has one. -/
def liftStyle (store : Store δ β φ) (styles : List (Option γ)) (id : NodeId) : List (Option γ) :=
  match (store.get id).bind S.getPrimary with
  | none => styles
  | some primary => styles.set id.index (some primary)

/-- The styles of the nodes of a document, by their index. -/
def liftStyles (doc : Document) (store : Store δ β φ) : List (Option γ) :=
  (doc.descendants doc.root).foldl (liftStyle S store) (List.replicate doc.len none)

/-- A style pass in which Stylo makes some calls. -/
def cascadeDocument (doc : Document) (owner : ThreadId) (calls : List (ThreadId × Call δ φ)) : Option (List (Option γ)) := do
  match ← Pass.start S doc owner with
  | none => return List.replicate doc.len none
  | some (pass : Pass δ β φ) => do
    let (_, pass) ← Calls.run (Pass.call S C) pass calls
    return liftStyles S doc pass.store

/-- `StyledDocument::computed`. -/
def computed (styles : List (Option γ)) (id : NodeId) : Option γ := styles[id.index]?.join

end

end Style

end ChromeLight
