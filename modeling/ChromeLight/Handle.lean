import ChromeLight.Dom

/-!
# Handles of the style pass

`cl-style`: a style pass gives every node of the document one slot, and navigates by references to slots. A reference is here the
id of the node whose slot it is. Selectors step between element siblings all the time, so the links to the nearest elements are
computed once for all slots, when the first handle is asked for (`NodeArena.link`), and not walked on demand (`walkToElement`).
-/

namespace ChromeLight

namespace Style

/-- The side table of a pass, of which the handles need the number of slots only. -/
structure StyleStore where
  slotCount : Nat

/-- The record of one node: its id, and its links to elements. -/
structure NodeSlot where
  id : NodeId
  prevElementSibling : Option NodeId := none
  nextElementSibling : Option NodeId := none
  firstElementChild : Option NodeId := none
deriving DecidableEq, Repr

/-- The slots of one pass over a document, and whether they are linked. -/
structure NodeArena where
  doc : Document
  slots : List NodeSlot
  linked : Bool
deriving DecidableEq, Repr

/-- Whether a node is an element. -/
def isElement (doc : Document) (id : NodeId) : Bool :=
  match (doc.get id).map Node.kind with
  | some (.element _) => true
  | _ => false

/-- One pass over a child list: every child is given the element that was passed last. It leaves the slots, and that element. -/
def linkPass (set : Option NodeId → NodeSlot → NodeSlot) :
    List NodeSlot → Option NodeId → List (NodeId × Bool) → List NodeSlot × Option NodeId
  | slots, passed, [] => (slots, passed)
  | slots, passed, (child, isElement) :: children =>
    linkPass set (slots.modify child.index (set passed)) (if isElement then some child else passed) children

/-- Link the children of one node among each other, and the node to the first element among them. -/
def linkChildren (doc : Document) (slots : List NodeSlot) (parent : NodeId) : List NodeSlot :=
  let children := ((doc.children parent).filterMap fun id => slots[id.index]?).map fun slot => (slot.id, isElement doc slot.id)
  let (slots, _) := linkPass (fun previous slot => { slot with prevElementSibling := previous }) slots none children
  let (slots, next) := linkPass (fun next slot => { slot with nextElementSibling := next }) slots none children.reverse
  -- the element passed last on the way back is the one nearest the front
  slots.modify parent.index fun slot => { slot with firstElementChild := next }

namespace NodeArena

/-- One slot for each node; none where the store was built for a document of another length. -/
def new (doc : Document) (store : StyleStore) : Option NodeArena :=
  if store.slotCount = doc.len then
    some { doc, slots := (List.range doc.len).map fun index => { id := .fromIndex index }, linked := false }
  else none

/-- Link every slot, once. -/
def link (arena : NodeArena) : NodeArena :=
  if arena.linked then arena
  else
    { arena with
      linked := true
      slots := arena.slots.foldl (fun slots parent => linkChildren arena.doc slots parent.id) arena.slots }

/-- The handle of a node, if the arena has a slot for it, and the arena, which the first call links. -/
def node (arena : NodeArena) (id : NodeId) : Option NodeId × NodeArena :=
  let arena := arena.link
  (arena.slots[id.index]?.map (·.id), arena)

/-! ## Navigation -/

variable (arena : NodeArena) (handle : NodeId)

/-- The handle of another node. -/
def withId (id : NodeId) : Option NodeId := arena.slots[id.index]?.map (·.id)

def firstChild : Option NodeId := ((arena.doc.get handle).bind (·.firstChild)).bind arena.withId

def prevSibling : Option NodeId := ((arena.doc.get handle).bind (·.prevSibling)).bind arena.withId

def nextSibling : Option NodeId := ((arena.doc.get handle).bind (·.nextSibling)).bind arena.withId

/-- The nearest preceding sibling that is an element. -/
def prevSiblingElement : Option NodeId := arena.slots[handle.index]?.bind (·.prevElementSibling)

/-- The nearest following sibling that is an element. -/
def nextSiblingElement : Option NodeId := arena.slots[handle.index]?.bind (·.nextElementSibling)

/-- The first child that is an element. -/
def firstElementChild : Option NodeId := arena.slots[handle.index]?.bind (·.firstElementChild)

/-- One step of the walk to an element. -/
def walkStep (step : NodeId → Option NodeId) (cursor : Option NodeId) : Option NodeId ⊕ Option NodeId :=
  match cursor with
  | some node => if isElement arena.doc node then .inr (some node) else .inl (step node)
  | none => .inr none

/-- The first element reached from `start` with `step`, by walking there. -/
def walkToElement (start : Option NodeId) (step : NodeId → Option NodeId) : Part (Option NodeId) :=
  While.loop (arena.walkStep step) start

end NodeArena

end Style

end ChromeLight
