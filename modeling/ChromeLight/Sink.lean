import ChromeLight.Dom

/-!
# The parser's sink

`cl-html`'s `DomSink`: the tree builder's callbacks as changes of a document. The builder hands over nodes and text; text goes
into a text node that is already next to its place, or into a new one. What the document refuses is dropped.

Every method takes the document the sink holds and leaves another. The parse errors, the doctype, the attributes that are
added later and the quirks mode are not here.
-/

namespace ChromeLight

/-- What the tree builder hands over: a node it has created, or some text. -/
inductive NodeOrText where
  | appendNode (node : NodeId)
  | appendText (text : StrTendril)
deriving DecidableEq, Repr

/-- What the tree builder knows of an element besides its name: here, whether it is a `<template>`. -/
structure ElementFlags where
  template : Bool
deriving DecidableEq, Repr

namespace DomSink

/-- Append text to a text node, or hand it back where the candidate is none. -/
def mergeIntoTrailingText (doc : Document) (candidate : Option NodeId) (text : StrTendril) : Except StrTendril Document :=
  match candidate with
  | none => .error text
  | some id =>
    match (doc.get id).map Node.kind with
    | some (.text existing) => .ok (doc.modify id fun node => { node with kind := .text (existing ++ text) })
    | _ => .error text

/-- A new element; a `<template>` gets a fragment for its contents. -/
def createElement (doc : Document) (name : QualName) (attrs : List Attr) (flags : ElementFlags) : NodeId × Document :=
  let (id, doc) := doc.create (.element { name, attrs, templateContents := none })
  if flags.template then
    let (contents, doc) := doc.create .documentFragment
    let doc := doc.modify id fun node =>
      match node.kind with
      | .element element => { node with kind := .element { element with templateContents := some contents } }
      | _ => node
    (id, doc)
  else (id, doc)

def createComment (doc : Document) (text : StrTendril) : NodeId × Document := doc.create (.comment text)

def createPi (doc : Document) (target data : StrTendril) : NodeId × Document :=
  doc.create (.processingInstruction target data)

/-- Put text next to a text node that may take it, or into a new node that `link` puts in its place. -/
def putText (doc : Document) (candidate : Option NodeId) (text : StrTendril)
    (link : Document → NodeId → Part (Except DomError Unit × Document)) : Part Document :=
  match mergeIntoTrailingText doc candidate text with
  | .ok doc => .some doc
  | .error text =>
    let (id, doc) := doc.create (.text text)
    (link doc id).map (·.2)

/-- A node or text behind the children of `parent`. -/
def append (doc : Document) (parent : NodeId) (child : NodeOrText) : Part Document :=
  match child with
  | .appendNode node => (doc.appendChild parent node).map (·.2)
  | .appendText text =>
    let last := (doc.get parent).bind (·.lastChild)
    putText doc last text fun doc id => doc.appendChild parent id

/-- A node or text in front of `sibling`. -/
def appendBeforeSibling (doc : Document) (sibling : NodeId) (newNode : NodeOrText) : Part Document :=
  match newNode with
  | .appendNode node =>
    let (_, doc) := doc.detach node
    (doc.insertBefore sibling node).map (·.2)
  | .appendText text =>
    let prev := (doc.get sibling).bind (·.prevSibling)
    putText doc prev text fun doc id => doc.insertBefore sibling id

/-- In front of `element` if it is in the tree, else behind the children of `prevElement`. -/
def appendBasedOnParentNode (doc : Document) (element prevElement : NodeId) (child : NodeOrText) : Part Document :=
  let hasParent := ((doc.get element).bind (·.parent)).isSome
  if hasParent then appendBeforeSibling doc element child else append doc prevElement child

/-- The calls of the tree builder that make nodes and put them into the tree. -/
inductive Call where
  | createElement (name : QualName) (attrs : List Attr) (flags : ElementFlags)
  | createComment (text : StrTendril)
  | createPi (target data : StrTendril)
  | append (parent : NodeId) (child : NodeOrText)
  | appendBeforeSibling (sibling : NodeId) (newNode : NodeOrText)
  | appendBasedOnParentNode (element prevElement : NodeId) (child : NodeOrText)
deriving DecidableEq, Repr

/-- The document a call leaves; undefined when it does not return. -/
def perform (doc : Document) : Call → Part Document
  | .createElement name attrs flags => .some (DomSink.createElement doc name attrs flags).2
  | .createComment text => .some (DomSink.createComment doc text).2
  | .createPi target data => .some (DomSink.createPi doc target data).2
  | .append parent child => DomSink.append doc parent child
  | .appendBeforeSibling sibling newNode => DomSink.appendBeforeSibling doc sibling newNode
  | .appendBasedOnParentNode element prevElement child => DomSink.appendBasedOnParentNode doc element prevElement child

/-- The document a sequence of calls leaves. -/
def exec : List Call → Document → Part Document
  | [], doc => .some doc
  | call :: calls, doc => do exec calls (← perform doc call)

end DomSink

end ChromeLight
