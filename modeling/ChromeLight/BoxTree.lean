import ChromeLight.Dom
import ChromeLight.Geom
import ChromeLight.Lemmas.Dom

/-!
# The box tree

`cl-layout`'s box generation: one walk over the DOM with an explicit stack of containers whose children are still being
visited. A container's box is made when its children are done, since only then it is known whether an inline element has to
become a block, and which runs of inline-level children have to be wrapped in an anonymous block, or dropped because they
are nothing but collapsible white space.
-/

namespace ChromeLight

/-- A document and the adapted computed style of each styled node. The link fields of a document are private, and its
operations keep the invariant. -/
structure StyledDocument where
  document : Document
  isTree : ∃ kids, document.Tree kids
  computed : NodeId → Option LayoutStyle

structure BoxId where
  index : Nat
deriving DecidableEq, Repr

inductive BoxKind where
  | block
  | inline
  | inlineText (node : NodeId)
  | anonymousBlock
  | anonymousInline
  | lineBreak
deriving DecidableEq, Repr

structure LayoutBox where
  node : Option NodeId
  kind : BoxKind
  style : LayoutStyle
  children : List BoxId
deriving DecidableEq, Repr

structure BoxTree where
  boxes : List LayoutBox
  root : BoxId
deriving DecidableEq, Repr

def BoxTree.get (tree : BoxTree) (id : BoxId) : Option LayoutBox := tree.boxes[id.index]?

def BoxTree.len (tree : BoxTree) : Nat := tree.boxes.length

/-- The characters that `white-space: normal` collapses. -/
def isCollapsible (c : Char) : Bool := c = ' ' || c = '\t' || c = '\n' || c = '\r' || c = '\x0C'

namespace BoxGen

/-- Whether a container's own box is block- or inline-level, by its computed `display`. -/
inductive ContainerKind where
  | block
  | inline
deriving DecidableEq, Repr

/-- A container whose box is not made yet: the children still to visit, and the boxes made of those visited. -/
structure Frame where
  node : NodeId
  style : LayoutStyle
  kind : ContainerKind
  children : List NodeId
  built : List BoxId
deriving DecidableEq, Repr

/-- What a child becomes in the box tree. -/
inductive ChildBox where
  | skip
  | leaf (kind : BoxKind) (style : LayoutStyle)
  | container (kind : ContainerKind) (style : LayoutStyle)
deriving DecidableEq, Repr

def containerKind (style : LayoutStyle) : ContainerKind :=
  match style.display with
  | .inline => .inline
  | .block | .none => .block

/-- The first element child of the document node. -/
def rootElement (document : Document) : Option NodeId :=
  (document.children document.root).find? fun id => (document.element id).isSome

/-- Append a box, and its id. -/
def pushBox (boxes : List LayoutBox) (node : Option NodeId) (kind : BoxKind) (style : LayoutStyle)
    (children : List BoxId) : BoxId × List LayoutBox :=
  (⟨boxes.length⟩, boxes ++ [⟨node, kind, style, children⟩])

def isBlockLevel : BoxKind → Bool
  | .block | .anonymousBlock => true
  | _ => false

/-- Whether an id names a box of that level. -/
def hasLevel (boxes : List LayoutBox) (blockLevel : Bool) (id : BoxId) : Bool :=
  match boxes[id.index]? with
  | some b => isBlockLevel b.kind = blockLevel
  | none => false

/-- The final kind of a container's box, and its style: an inline container with a block-level child becomes a block. -/
def finalizeKind (kind : ContainerKind) (style : LayoutStyle) (boxes : List LayoutBox) (built : List BoxId) :
    BoxKind × LayoutStyle :=
  let hasBlockChild := built.any (hasLevel boxes true)
  if kind = .inline ∧ hasBlockChild then (.block, { style with display := .block })
  else match kind with
    | .block => (.block, style)
    | .inline => (.inline, style)

/-- One text node's characters, none for another node. -/
def textOf (document : Document) (node : NodeId) : StrTendril :=
  match (document.get node).map Node.kind with
  | some (.text text) => text
  | _ => []

/-- Whether a box is text that `white-space: normal` collapses away. -/
def isCollapsibleText (document : Document) (b : LayoutBox) : Bool :=
  match b.kind with
  | .inlineText node => b.style.whiteSpace = .normal && (textOf document node).all isCollapsible
  | _ => false

def runIsCollapsibleWhitespace (boxes : List LayoutBox) (document : Document) (run : List BoxId) : Bool :=
  !run.isEmpty && run.all fun id =>
    match boxes[id.index]? with
    | some b => isCollapsibleText document b
    | none => false

section

variable (Γ : FloatOps)

/-- What a node becomes under a container of that style. -/
def classifyChild (doc : StyledDocument) (node : NodeId) (parentStyle : LayoutStyle) : ChildBox :=
  match doc.document.get node with
  | none => .skip
  | some domNode =>
    match domNode.kind with
    | .text _ => .leaf (.inlineText node) (.inheritedTextStyle Γ parentStyle)
    | .element element =>
      match doc.computed node with
      | none => .skip
      | some style =>
        if style.display = .none then .skip
        else if element.name.localName = "br" then .leaf .lineBreak style
        else match style.display with
          | .block => .container .block style
          | .inline | .none => .container .inline style
    | .document | .doctype _ | .comment _ | .processingInstruction _ _ | .documentFragment => .skip

/-- Wrap a run of inline-level children in a new anonymous block. -/
def flushRun (boxes : List LayoutBox) (run : List BoxId) (containerStyle : LayoutStyle) : BoxId × List LayoutBox :=
  pushBox boxes none .anonymousBlock (.anonymousBlock Γ containerStyle) run

/-- The boxes, the run collected and the children kept so far, while a container's children are wrapped. -/
structure WrapState where
  boxes : List LayoutBox
  run : List BoxId
  result : List BoxId
deriving DecidableEq, Repr

/-- The end of a run: drop it if it is collapsible white space, else wrap it. -/
def pushOrDropRun (document : Document) (containerStyle : LayoutStyle) (s : WrapState) : WrapState :=
  if runIsCollapsibleWhitespace s.boxes document s.run then { s with run := [] }
  else
    let (id, boxes) := flushRun Γ s.boxes s.run containerStyle
    { boxes, run := [], result := s.result ++ [id] }

/-- One child of a container that mixes block-level and inline-level children. -/
def wrapStep (document : Document) (containerStyle : LayoutStyle) (s : WrapState) (id : BoxId) : WrapState :=
  if hasLevel s.boxes true id then
    let s := if s.run.isEmpty then s else pushOrDropRun Γ document containerStyle s
    { s with result := s.result ++ [id] }
  else { s with run := s.run ++ [id] }

/-- A container's final children: the runs of inline-level ones wrapped if there are block-level ones beside them. -/
def wrapInlineRuns (boxes : List LayoutBox) (document : Document) (built : List BoxId) (containerStyle : LayoutStyle) :
    List BoxId × List LayoutBox :=
  let hasBlock := built.any (hasLevel boxes true)
  let hasInline := built.any (hasLevel boxes false)
  if !(hasBlock && hasInline) then (built, boxes)
  else
    let s := built.foldl (wrapStep Γ document containerStyle) { boxes, run := [], result := [] }
    let s := if s.run.isEmpty then s else pushOrDropRun Γ document containerStyle s
    (s.result, s.boxes)

/-- The walk's state; the head of the stack is its top. -/
structure BuildState where
  stack : List Frame
  boxes : List LayoutBox
deriving DecidableEq, Repr

/-- The tree for a document without a box: one empty anonymous block. -/
def emptyTree (boxes : List LayoutBox) : BoxTree :=
  let (root, boxes) := pushBox boxes none .anonymousBlock (.initial Γ) []
  { boxes, root }

/-- One iteration of the walk. -/
def buildStep (doc : StyledDocument) (s : BuildState) : BuildState ⊕ BoxTree :=
  match s.stack with
  | [] => .inr (emptyTree Γ s.boxes)
  | frame :: stack =>
    match frame.children with
    | [] =>
      -- the children are exhausted: make the box and hand it to the parent frame
      let (kind, style) := finalizeKind frame.kind frame.style s.boxes frame.built
      let (children, boxes) := wrapInlineRuns Γ s.boxes doc.document frame.built style
      let (boxId, boxes) := pushBox boxes (some frame.node) kind style children
      match stack with
      | [] => .inr { boxes, root := boxId }
      | parent :: stack => .inl { stack := { parent with built := parent.built ++ [boxId] } :: stack, boxes }
    | childId :: children =>
      let frame := { frame with children }
      match classifyChild Γ doc childId frame.style with
      | .skip => .inl { s with stack := frame :: stack }
      | .leaf kind style =>
        let (boxId, boxes) := pushBox s.boxes (some childId) kind style []
        .inl { stack := { frame with built := frame.built ++ [boxId] } :: stack, boxes }
      | .container kind style =>
        let child : Frame := { node := childId, style, kind, children := doc.document.children childId, built := [] }
        .inl { stack := child :: frame :: stack, boxes := s.boxes }

/-- The style of the document element. -/
def rootStyle (doc : StyledDocument) (rootNode : NodeId) : LayoutStyle := (doc.computed rootNode).getD (.initial Γ)

/-- The box tree of a styled document. -/
def build (doc : StyledDocument) : Part BoxTree :=
  match rootElement doc.document with
  | none => .some (emptyTree Γ [])
  | some rootNode =>
    let style := rootStyle Γ doc rootNode
    if style.display = .none then .some (emptyTree Γ [])
    else
      let frame : Frame :=
        { node := rootNode, style, kind := containerKind style, children := doc.document.children rootNode, built := [] }
      While.loop (buildStep Γ doc) { stack := [frame], boxes := [] }

end

end BoxGen

end ChromeLight
