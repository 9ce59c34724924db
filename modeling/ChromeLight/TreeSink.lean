import ChromeLight.Sink

/-!
# The whole sink

Everything html5ever's tree builder may ask of `DomSink`, with the parse errors it reports: the calls of `Sink.lean`, the
doctype, later attributes, removal and the move of children. `parse` is what the sink hands back after a sequence of calls; the
builder chooses each call from the answers to those before it, so every parse is such a sequence.
-/

namespace ChromeLight

/-- How many parse errors are kept. -/
def maxParseErrors : Nat := 256

/-- The names the tree builder has for the quirks modes. -/
inductive Html5everQuirksMode where
  | quirks
  | limitedQuirks
  | noQuirks
deriving DecidableEq, Repr

/-- Set how the document is read. -/
def Document.setQuirksMode (doc : Document) (mode : QuirksMode) : Document := { doc with quirks := mode }

/-- The sink: the document so far, and the errors reported. -/
structure DomSink where
  doc : Document
  /-- The parse errors that are kept. -/
  errors : List String
  /-- How many more there were, a `usize`. -/
  errorsSuppressed : Nat

/-- What parsing leaves. -/
structure ParseOutputInner where
  document : Document
  parseErrors : List String
  parseErrorsSuppressed : Nat

namespace DomSink

/-- A sink over a new document. -/
def new (baseUrl : String) : DomSink := { doc := .new baseUrl, errors := [], errorsSuppressed := 0 }

/-- The sink, when parsing is over. -/
def finish (sink : DomSink) : ParseOutputInner :=
  { document := sink.doc, parseErrors := sink.errors, parseErrorsSuppressed := sink.errorsSuppressed }

/-- Report an error, or count it when there are too many. -/
def parseError (sink : DomSink) (msg : String) : DomSink :=
  if sink.errors.length < maxParseErrors then { sink with errors := sink.errors ++ [msg] }
  else { sink with errorsSuppressed := min (sink.errorsSuppressed + 1) usizeMax }

/-! ## Answers -/

/-- The root. -/
def getDocument (doc : Document) : NodeId := doc.root

/-- The name of what is no element. -/
def unknownElementName : QualName := ⟨none, "", ""⟩

/-- The name of an element. -/
def elemName (doc : Document) (target : NodeId) : QualName := ((doc.element target).map Element.name).getD unknownElementName

/-- The contents of a template, or the node itself. -/
def getTemplateContents (doc : Document) (target : NodeId) : NodeId :=
  ((doc.element target).bind Element.templateContents).getD target

/-! ## Changes -/

/-- Append a doctype to the document. -/
def appendDoctypeToDocument (doc : Document) (name publicId systemId : StrTendril) : Part Document :=
  let root := doc.root
  let (id, doc) := doc.create (.doctype { name, publicId, systemId })
  (doc.appendChild root id).map (·.2)

/-- Set how the document is read. -/
def setQuirksMode (doc : Document) (mode : Html5everQuirksMode) : Document :=
  doc.setQuirksMode <| match mode with
    | .quirks => .quirks
    | .limitedQuirks => .limitedQuirks
    | .noQuirks => .noQuirks

/-- An attribute behind those an element has, unless it has one of that name. -/
def pushIfMissing (attrs : List Attr) (attr : Attr) : List Attr :=
  if attrs.any (fun existing => existing.name = attr.name) then attrs else attrs ++ [attr]

/-- Add the attributes whose names are not there. -/
def addAttrsIfMissing (doc : Document) (target : NodeId) (attrs : List Attr) : Document :=
  doc.modify target fun node =>
    match node.kind with
    | .element element => { node with kind := .element { element with attrs := attrs.foldl pushIfMissing element.attrs } }
    | _ => node

/-- Take a node away from its parent. -/
def removeFromParent (doc : Document) (target : NodeId) : Document := (doc.detach target).2

/-- Move all children of a node to another. -/
def reparentChildren (doc : Document) (node newParent : NodeId) : Part Document :=
  (doc.reparentChildren node newParent).map (·.2)

/-- The calls of the tree builder that change the sink. -/
inductive TreeCall where
  | parseError (msg : String)
  | build (call : Call)
  | appendDoctypeToDocument (name publicId systemId : StrTendril)
  | setQuirksMode (mode : Html5everQuirksMode)
  | addAttrsIfMissing (target : NodeId) (attrs : List Attr)
  | removeFromParent (target : NodeId)
  | reparentChildren (node newParent : NodeId)
deriving DecidableEq, Repr

/-- The document a call leaves. -/
def change (doc : Document) : TreeCall → Part Document
  | .parseError _ => .some doc
  | .build call => perform doc call
  | .appendDoctypeToDocument name publicId systemId => appendDoctypeToDocument doc name publicId systemId
  | .setQuirksMode mode => .some (setQuirksMode doc mode)
  | .addAttrsIfMissing target attrs => .some (addAttrsIfMissing doc target attrs)
  | .removeFromParent target => .some (removeFromParent doc target)
  | .reparentChildren node newParent => reparentChildren doc node newParent

/-- The sink a call leaves; undefined when it does not return. -/
def call (sink : DomSink) : TreeCall → Part DomSink
  | .parseError msg => .some (sink.parseError msg)
  | treeCall => (change sink.doc treeCall).map fun doc => { sink with doc }

/-- The sink a sequence of calls leaves. -/
def run : List TreeCall → DomSink → Part DomSink
  | [], sink => .some sink
  | treeCall :: calls, sink => do run calls (← sink.call treeCall)

/-- What the sink hands back after a sequence of calls on a new one. -/
def parse (baseUrl : String) (calls : List TreeCall) : Part ParseOutputInner := (run calls (.new baseUrl)).map finish

/-- The messages of the parse errors, in order. -/
def messages (calls : List TreeCall) : List String :=
  calls.filterMap fun
    | .parseError msg => some msg
    | _ => none

end DomSink

end ChromeLight
