import ChromeLight.StylePass
import Mathlib.Logic.Function.Basic

/-!
# What a style pass keeps

The pass as Stylo sees it, without slots, cells or links: one record for each node, with its data if there are any, and every other
answer a function of the document. An element's `id` and its declarations are what the document says each time they are asked for.
-/

namespace ChromeLight

namespace Style

/-- What is kept of one node. -/
structure Record (δ φ : Type) where
  data : Option δ := none
  selectorFlags : Finset φ := ∅
  dirtyDescendants : Bool := false
  pendingChildren : Int := 0

/-- The records of all nodes, the handles Stylo has, and the elements whose `id` or `style` it has asked for, in that order. -/
structure Records (δ φ : Type) where
  doc : Document
  owner : ThreadId
  record : NodeId → Record δ φ
  nodes : List NodeId
  elements : List NodeId
  askedIds : List NodeId
  askedStyles : List NodeId

/-- The link of a node. -/
def NodeLink.read : NodeLink → Node → Option NodeId
  | .parentNode => Node.parent
  | .firstChild => Node.firstChild
  | .lastChild => Node.lastChild
  | .prevSibling => Node.prevSibling
  | .nextSibling => Node.nextSibling

section

variable (doc : Document) (id : NodeId)

/-- The siblings before a node. -/
def siblingsBefore : List NodeId :=
  match (doc.get id).bind Node.parent with
  | none => []
  | some parent => (doc.children parent).takeWhile (· ≠ id)

/-- The siblings after a node. -/
def siblingsAfter : List NodeId :=
  match (doc.get id).bind Node.parent with
  | none => []
  | some parent => ((doc.children parent).dropWhile (· ≠ id)).tail

/-- The element that a link of an element leads to. -/
def ElementLink.read : ElementLink → Option NodeId
  | .parentElement => ((doc.get id).bind Node.parent).filter (isElement doc)
  | .prevSiblingElement => (siblingsBefore doc id).reverse.find? (isElement doc)
  | .nextSiblingElement => (siblingsAfter doc id).find? (isElement doc)
  | .firstElementChild => (doc.children id).find? (isElement doc)

end

/-- The list with an element at its end, if it is new. -/
def addNew (l : List NodeId) (id : NodeId) : List NodeId := if id ∈ l then l else l ++ [id]

section

variable {υ ρ δ β φ γ : Type} (S : Stylo υ δ β φ γ) (C : Net.UrlCrate υ ρ)

/-- What the `style` attribute of an element declares. -/
def declarations (doc : Document) (id : NodeId) : Option β :=
  (doc.attr id "style").bind fun css =>
    match C.parse doc.baseUrl with
    | .error _ => none
    | .ok base => some (S.parseStyleAttribute css base doc.quirks)

namespace Records

variable (r : Records δ φ) (thread : ThreadId)

def Holds : NodeId ⊕ NodeId → Bool
  | .inl node => node ∈ r.nodes
  | .inr element => element ∈ r.elements

/-- Change one record. -/
def modify (id : NodeId) (f : Record δ φ → Record δ φ) : Records δ φ :=
  { r with record := Function.update r.record id (f (r.record id)) }

@[simp] theorem record_modify_self (id : NodeId) (f : Record δ φ → Record δ φ) : (r.modify id f).record id = f (r.record id) :=
  Function.update_self ..

theorem record_modify_of_ne {id c : NodeId} (h : c ≠ id) (f : Record δ φ → Record δ φ) : (r.modify id f).record c = r.record c :=
  Function.update_of_ne h ..

/-- Only the thread of the pass changes it. -/
def owned {α : Type} (x : α) : Option α := if thread = r.owner then some x else none

variable [DecidableEq φ]

def insertFlags (flags : Finset φ) (id : NodeId) : Records δ φ :=
  r.modify id fun record => { record with selectorFlags := record.selectorFlags ∪ flags }

/-- The nodes that selector flags of an element are for. -/
def flagged (element : NodeId) (flags : Finset φ) : List (NodeId × Finset φ) :=
  (element, flags ∩ S.forSelf) :: ((r.doc.get element).bind Node.parent).toList.map fun parent => (parent, flags ∩ S.forParent)

variable [Inhabited δ]

def perform : Call δ φ → Option (Answer δ β φ × Records δ φ)
  | .follow link node =>
    let there := (r.doc.get node).bind link.read
    some (.handle there, { r with nodes := there.toList ++ r.nodes })
  | .asElement node =>
    let there := if isElement r.doc node then some node else none
    some (.handle there, { r with elements := there.toList ++ r.elements })
  | .asNode element => some (.handle (some element), { r with nodes := element :: r.nodes })
  | .followElement link element =>
    let there := link.read r.doc element
    some (.handle there, { r with elements := there.toList ++ r.elements })
  | .traversalChildren element =>
    let nodes := (r.doc.children element).filter fun child => S.layoutKeeps (isElement r.doc child) (isText r.doc child)
    some (.handles nodes, { r with nodes := nodes ++ r.nodes })
  | .id element => r.owned thread (.atom (r.doc.attr element "id"), { r with askedIds := addNew r.askedIds element })
  | .hasId element id caseSensitivity =>
    r.owned thread (.bool ((r.doc.attr element "id").any fun own => S.eqAtom caseSensitivity own id),
      { r with askedIds := addNew r.askedIds element })
  | .styleAttribute element =>
    r.owned thread (.block (declarations S C r.doc element), { r with askedStyles := addNew r.askedStyles element })
  | .applySelectorFlags element flags =>
    if (∀ target ∈ r.flagged S element flags, target.2 = ∅) ∨ thread = r.owner then
      some (.unit, (r.flagged S element flags).foldl (fun r target => r.insertFlags target.2 target.1) r)
    else none
  | .hasSelectorFlags element flags => some (.bool (flags ⊆ (r.record element).selectorFlags), r)
  | .relativeSelectorSearchDirection element => some (.flags (S.searchDirection (r.record element).selectorFlags), r)
  | .ensureData element write =>
    let data := (r.record element).data.getD default
    r.owned thread (.data (some data), r.modify element fun record => { record with data := some (write data) })
  | .clearData element => r.owned thread (.unit, r.modify element fun record => { record with data := none })
  | .hasData element => some (.bool (r.record element).data.isSome, r)
  | .borrowData element => some (.data (r.record element).data, r)
  | .mutateData element write =>
    r.owned thread (.data (r.record element).data, r.modify element fun record => { record with data := record.data.map write })
  | .setDirtyDescendants element dirty =>
    r.owned thread (.unit, r.modify element fun record => { record with dirtyDescendants := dirty })
  | .hasDirtyDescendants element => some (.bool (r.record element).dirtyDescendants, r)
  | .storeChildrenToProcess element n =>
    r.owned thread (.unit, r.modify element fun record => { record with pendingChildren := n.value })
  | .didProcessChild element =>
    let left := max ((r.record element).pendingChildren - 1) 0
    r.owned thread (.count left, r.modify element fun record => { record with pendingChildren := left })

def call (r : Records δ φ) (k : ThreadId × Call δ φ) : Option (Answer δ β φ × Records δ φ) :=
  if r.Holds k.2.handle then r.perform S C k.1 k.2 else none

/-- At the start nothing is kept of any node but the root element. -/
def start (doc : Document) (owner : ThreadId) (root : NodeId) : Records δ φ where
  doc
  owner
  record := Function.update (fun _ => {}) root { data := some (S.insertRestyleSubtree default) }
  nodes := []
  elements := [root]
  askedIds := []
  askedStyles := []

end Records

/-- The call that an event is. To write through a guard is to change what is there. -/
def Event.asCall (owner : ThreadId) : Event δ φ → Option (ThreadId × Call δ φ)
  | .call thread k => some (thread, k)
  | .written element write => some (owner, .mutateData element write)
  | .dropped _ _ => none

/-! ## What the calls of a pass leave -/

namespace Call

variable [Inhabited δ]

/-- The element whose `id` a call asks for. -/
def asksId : Call δ φ → Option NodeId
  | .id element | .hasId element _ _ => some element
  | _ => none

/-- The element whose declarations a call asks for. -/
def asksStyle : Call δ φ → Option NodeId
  | .styleAttribute element => some element
  | _ => none

/-- What a call leaves of the data of a node. -/
def onData (id : NodeId) (data : Option δ) : Call δ φ → Option δ
  | .ensureData element write => if id = element then some (write (data.getD default)) else data
  | .clearData element => if id = element then none else data
  | .mutateData element write => if id = element then data.map write else data
  | _ => data

/-- What the calls of a pass leave of the data of a node. -/
def dataAfter (root : NodeId) (calls : List (ThreadId × Call δ φ)) (id : NodeId) : Option δ :=
  calls.foldl (fun data k => k.2.onData id data) (if id = root then some (S.insertRestyleSubtree default) else none)

end Call

end

end Style

end ChromeLight
