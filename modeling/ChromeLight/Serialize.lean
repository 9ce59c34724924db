import ChromeLight.Dom
import Mathlib.Data.Char
import Mathlib.Data.List.Lex
import Mathlib.Data.List.Sort

/-!
# The dump of a document

`cl-dom`'s `html5lib_tree`: a document in the `#document` format of the html5lib tree-construction tests. Every node has its line,
indented by its depth, an element one more for each attribute, and a template a `content` line above its contents. The walk has a
stack of nodes with their depths, and visits as many nodes at most as the document holds.
-/

namespace ChromeLight

namespace Serialize

/-- What starts every line: the marker, and two spaces for each level. -/
def indent (levels : Nat) : StrTendril := "| ".toList ++ (List.replicate levels "  ".toList).flatten

/-- What stands before the name of an element of a foreign namespace. -/
def tagPrefix (ns : String) : StrTendril :=
  if ns = "http://www.w3.org/2000/svg" then "svg ".toList
  else if ns = "http://www.w3.org/1998/Math/MathML" then "math ".toList
  else []

/-- Text between quotation marks. -/
def quoted (text : StrTendril) : StrTendril := '"' :: text ++ ['"']

def formatAttr (attr : Attr) : StrTendril :=
  match attr.name.qualifier with
  | none => attr.name.localName.toList ++ '=' :: quoted attr.value
  | some qualifier => qualifier.toList ++ ' ' :: attr.name.localName.toList ++ '=' :: quoted attr.value

def formatDoctype (doctype : Doctype) : StrTendril :=
  if doctype.publicId.isEmpty && doctype.systemId.isEmpty then "<!DOCTYPE ".toList ++ doctype.name ++ ">".toList
  else
    "<!DOCTYPE ".toList ++ doctype.name ++ ' ' :: quoted doctype.publicId ++ ' ' :: quoted doctype.systemId ++ ">".toList

/-- The lines of a node, without those of its children: its own line, and those of its attributes in the order of their text. -/
def nodeLines (node : Node) (depth : Nat) : List StrTendril :=
  let own := indent (depth - 1)
  match node.kind with
  | .element element =>
    (own ++ '<' :: tagPrefix element.name.ns ++ element.name.localName.toList ++ ['>']) ::
      ((element.attrs.map formatAttr).insertionSort (· ≤ ·)).map fun rendered => indent depth ++ rendered
  | .text text => [own ++ quoted text]
  | .comment text => [own ++ "<!-- ".toList ++ text ++ " -->".toList]
  | .doctype doctype => [own ++ formatDoctype doctype]
  | .processingInstruction target data => [own ++ "<?".toList ++ target ++ ' ' :: data ++ ">".toList]
  | .document => []
  | .documentFragment => []

/-- Put the children of a node on the stack, the first on top. -/
def pushChildren (doc : Document) (parent : NodeId) (depth : Nat) (stack : List (NodeId × Nat)) : List (NodeId × Nat) :=
  (doc.children parent).map (fun id => (id, depth)) ++ stack

/-- The line above the contents of a template. -/
def contentLine (depth : Nat) : StrTendril := indent depth ++ "content".toList

/-- The lines of the walk: those of the nodes on a stack, its top first, and of what is below them, `remaining` nodes at most. -/
def linesFrom (doc : Document) : Nat → List (NodeId × Nat) → List StrTendril
  | _, [] => []
  | 0, _ :: _ => []
  | remaining + 1, (id, depth) :: stack =>
    match doc.get id with
    | none => linesFrom doc remaining stack
    | some node =>
      nodeLines node depth ++
        match node.kind with
        | .element element =>
          match element.templateContents with
          | some contents => contentLine depth :: linesFrom doc remaining (pushChildren doc contents (depth + 2) stack)
          | none => linesFrom doc remaining (pushChildren doc id (depth + 1) stack)
        | .documentFragment => linesFrom doc remaining (pushChildren doc id depth stack)
        | .document | .doctype _ | .text _ | .comment _ | .processingInstruction _ _ => linesFrom doc remaining stack

/-- The lines of a document. -/
def documentLines (doc : Document) : List StrTendril :=
  "#document".toList :: linesFrom doc doc.len (pushChildren doc doc.root 1 [])

/-- The dump of a document. -/
def html5libTree (doc : Document) : StrTendril := ['\n'].intercalate (documentLines doc)

end Serialize

end ChromeLight
