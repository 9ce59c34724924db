import ChromeLight.Lib.While

/-!
# The DOM arena

`cl-dom`: a document is one flat list of nodes, addressed by index, with the tree edges stored inline on each node as ids.
Nothing is ever freed. Lookups on an id the arena does not hold answer `none`, and updates through such an id do nothing.

A method that loops is a partial function, undefined where its loop never returns; a method that can fail returns its error
beside the document it leaves.
-/

namespace ChromeLight

/-- `u32::MAX`: the cap of the arena, and the id that names no node. -/
def u32Max : Nat := 4294967295

/-- The greatest `usize`. -/
def usizeMax : Nat := 18446744073709551615

/-- An arena index, a `u32`. -/
structure NodeId where
  index : Nat
  isU32 : index ≤ u32Max
deriving DecidableEq, Repr

/-- The id of an arena index, `u32::MAX` where the index does not fit. -/
def NodeId.fromIndex (index : Nat) : NodeId := ⟨min index u32Max, Nat.min_le_right _ _⟩

/-- UTF-8 text, as its characters. -/
abbrev StrTendril := List Char

/-- A qualified name: optional qualifier, namespace, local name. -/
structure QualName where
  qualifier : Option String
  ns : String
  localName : String
deriving DecidableEq, Repr

/-- An attribute and its value. -/
structure Attr where
  name : QualName
  value : StrTendril
deriving DecidableEq, Repr

/-- An element: its name, its attributes and, of a template, its contents. -/
structure Element where
  name : QualName
  attrs : List Attr
  /-- The fragment that holds a `<template>`'s contents. -/
  templateContents : Option NodeId
deriving DecidableEq, Repr

/-- A document type. -/
structure Doctype where
  name : StrTendril
  publicId : StrTendril
  systemId : StrTendril
deriving DecidableEq, Repr

/-- What a node is. -/
inductive NodeKind where
  | document
  | doctype (d : Doctype)
  | element (e : Element)
  | text (t : StrTendril)
  | comment (t : StrTendril)
  | processingInstruction (target data : StrTendril)
  | documentFragment
deriving DecidableEq, Repr

/-- A node: what it is, and its links. -/
structure Node where
  kind : NodeKind
  parent : Option NodeId := none
  firstChild : Option NodeId := none
  lastChild : Option NodeId := none
  prevSibling : Option NodeId := none
  nextSibling : Option NodeId := none
deriving DecidableEq, Repr

/-- How far a document is read as an old one. -/
inductive QuirksMode where
  | noQuirks
  | limitedQuirks
  | quirks
deriving DecidableEq, Repr

/-- Why an operation is refused. -/
inductive DomError where
  | noSuchNode (id : NodeId)
  | cycle (ancestor descendant : NodeId)
  | notDetached (id : NodeId)
  | isDocument
deriving DecidableEq, Repr

/-- A document: its nodes in the order in which they were made. -/
structure Document where
  nodes : List Node
  quirks : QuirksMode
  baseUrl : String
deriving DecidableEq, Repr

namespace Document

/-- A document that holds its root only. -/
def new (baseUrl : String) : Document :=
  { nodes := [{ kind := .document }], quirks := .noQuirks, baseUrl }

/-- The root, which is made first. -/
def root (_doc : Document) : NodeId := .fromIndex 0

/-- The node of an id, if there is one. -/
def get (doc : Document) (id : NodeId) : Option Node := doc.nodes[id.index]?

/-- How many nodes there are. -/
def len (doc : Document) : Nat := doc.nodes.length

/-- An assignment through `get_mut`: it changes the node if the arena holds it. -/
def modify (doc : Document) (id : NodeId) (f : Node → Node) : Document :=
  { doc with nodes := doc.nodes.modify id.index f }

/-- A new node without parent, children or siblings, and its id; at the cap, the id that names no node. -/
def create (doc : Document) (kind : NodeKind) : NodeId × Document :=
  if u32Max ≤ doc.len then (.fromIndex usizeMax, doc)
  else (.fromIndex doc.len, { doc with nodes := doc.nodes ++ [{ kind }] })

/-- One step of the walk from a node to the root, looking for `candidate`. -/
def ancestorStep (doc : Document) (candidate node : NodeId) : NodeId ⊕ Bool :=
  if node = candidate then .inr true
  else match (doc.get node).bind (·.parent) with
    | some p => .inl p
    | none => .inr false

/-- Whether `candidate` is `node` or one of its ancestors. -/
def isAncestorOrSelf (doc : Document) (candidate node : NodeId) : Part Bool :=
  While.loop (doc.ancestorStep candidate) node

/-- What attaching `child` under `parent` is refused for: an unknown id, the root, a cycle, a child attached already. -/
def checkAttach (doc : Document) (parent child : NodeId) : Part (Except DomError Unit) :=
  if (doc.get parent).isNone then .some (.error (.noSuchNode parent))
  else match doc.get child with
    | none => .some (.error (.noSuchNode child))
    | some childNode =>
      if child = doc.root then .some (.error .isDocument)
      else do
        -- a child without children is nobody's ancestor: the walk is not needed
        let makesCycle ←
          (if childNode.firstChild.isNone then .some (decide (child = parent)) else doc.isAncestorOrSelf child parent)
        if makesCycle then .some (.error (.cycle child parent))
        else if childNode.parent.isSome then .some (.error (.notDetached child))
        else .some (.ok ())

/-- Take a node out of its parent's child list, with its subtree. -/
def unlink (doc : Document) (id : NodeId) : Document :=
  match doc.get id with
  | none => doc
  | some node =>
    match node.parent with
    | none => doc
    | some parent =>
      let prev := node.prevSibling
      let next := node.nextSibling
      let doc := match prev with
        | some prevId => doc.modify prevId fun n => { n with nextSibling := next }
        | none => doc.modify parent fun n => { n with firstChild := next }
      let doc := match next with
        | some nextId => doc.modify nextId fun n => { n with prevSibling := prev }
        | none => doc.modify parent fun n => { n with lastChild := prev }
      doc.modify id fun n => { n with parent := none, prevSibling := none, nextSibling := none }

/-- Link a node without parent as the last child of `parent`. -/
def linkLast (doc : Document) (parent child : NodeId) : Document :=
  let oldLast := (doc.get parent).bind (·.lastChild)
  let doc := doc.modify child fun n => { n with parent := some parent, prevSibling := oldLast, nextSibling := none }
  let doc := match oldLast with
    | some lastId => doc.modify lastId fun n => { n with nextSibling := some child }
    | none => doc.modify parent fun n => { n with firstChild := some child }
  doc.modify parent fun n => { n with lastChild := some child }

/-- Link a node without parent before `sibling`, a child of `parent`. -/
def linkBefore (doc : Document) (parent sibling new : NodeId) : Document :=
  let oldPrev := (doc.get sibling).bind (·.prevSibling)
  let doc := doc.modify new fun n => { n with parent := some parent, prevSibling := oldPrev, nextSibling := some sibling }
  let doc := match oldPrev with
    | some prevId => doc.modify prevId fun n => { n with nextSibling := some new }
    | none => doc.modify parent fun n => { n with firstChild := some new }
  doc.modify sibling fun n => { n with prevSibling := some new }

/-- Make a node the last child of another. -/
def appendChild (doc : Document) (parent child : NodeId) : Part (Except DomError Unit × Document) := do
  match ← doc.checkAttach parent child with
  | .error e => .some (.error e, doc)
  | .ok () => .some (.ok (), doc.linkLast parent child)

/-- Put a node before a sibling. -/
def insertBefore (doc : Document) (sibling new : NodeId) : Part (Except DomError Unit × Document) :=
  if (doc.get new).isNone then .some (.error (.noSuchNode new), doc)
  else match doc.get sibling with
    | none => .some (.error (.noSuchNode sibling), doc)
    | some siblingNode =>
      match siblingNode.parent with
      | none => .some (.error .isDocument, doc)
      | some parent => do
        match ← doc.checkAttach parent new with
        | .error e => .some (.error e, doc)
        | .ok () => .some (.ok (), doc.linkBefore parent sibling new)

/-- Take a node away from its parent. -/
def detach (doc : Document) (id : NodeId) : Except DomError Unit × Document :=
  if (doc.get id).isNone then (.error (.noSuchNode id), doc) else (.ok (), doc.unlink id)

/-- One round of moving the children of `source`: the first child goes, as the last child of `target`. -/
def reparentStep (source target : NodeId) (doc : Document) : Document ⊕ Document :=
  match (doc.get source).bind (·.firstChild) with
  | some child => .inl ((doc.unlink child).linkLast target child)
  | none => .inr doc

/-- Move all children of a node to the end of another. -/
def reparentChildren (doc : Document) (source target : NodeId) : Part (Except DomError Unit × Document) :=
  if (doc.get source).isNone then .some (.error (.noSuchNode source), doc)
  else if (doc.get target).isNone then .some (.error (.noSuchNode target), doc)
  else if source = target then .some (.ok (), doc)
  else do
    if ← doc.isAncestorOrSelf source target then .some (.error (.cycle source target), doc)
    else
      let doc ← While.loop (reparentStep source target) doc
      .some (.ok (), doc)

/-- The element a node is, if it is one. -/
def element (doc : Document) (id : NodeId) : Option Element := do
  match (← doc.get id).kind with
  | .element e => some e
  | _ => none

/-! ## Traversal -/

/-- What `Children` yields: a walk along the next siblings, `remaining` nodes at most. -/
def siblingsFrom (doc : Document) : Nat → Option NodeId → List NodeId
  | 0, _ => []
  | _ + 1, none => []
  | remaining + 1, some current => current :: doc.siblingsFrom remaining ((doc.get current).bind (·.nextSibling))

/-- The children of a node in document order, none for an unknown id. -/
def children (doc : Document) (id : NodeId) : List NodeId :=
  doc.siblingsFrom doc.len ((doc.get id).bind (·.firstChild))

/-- What `Descendants` yields: a walk with a stack of nodes, its top first, `remaining` nodes at most. -/
def descendantsFrom (doc : Document) : Nat → List NodeId → List NodeId
  | 0, _ => []
  | _ + 1, [] => []
  | remaining + 1, current :: stack => current :: doc.descendantsFrom remaining (doc.children current ++ stack)

/-- The nodes below a node in document order, none for an unknown id. -/
def descendants (doc : Document) (id : NodeId) : List NodeId := doc.descendantsFrom doc.len (doc.children id)

/-- What `Ancestors` yields: a walk along the parents, `remaining` nodes at most. -/
def ancestorsFrom (doc : Document) : Nat → Option NodeId → List NodeId
  | 0, _ => []
  | _ + 1, none => []
  | remaining + 1, some current => current :: doc.ancestorsFrom remaining ((doc.get current).bind (·.parent))

/-- The nodes above a node, its parent first, none for an unknown id. -/
def ancestors (doc : Document) (id : NodeId) : List NodeId :=
  doc.ancestorsFrom doc.len ((doc.get id).bind (·.parent))

end Document

end ChromeLight
