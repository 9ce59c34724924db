import ChromeLight.Lib.Ascii
import ChromeLight.Lib.Utf8
import ChromeLight.Net
import ChromeLight.Viewport
import ChromeLight.Dom

/-!
# Collecting stylesheets

`crates/style`: the engine's sheets, and the walk that adds those of a document in document order. A `<style>` is added with its
text; a `<link>` with what its URL loads, or else it leaves a warning. What Stylo makes of the sheets is a parameter, so a sheet is
kept as it was handed to it.
-/

namespace ChromeLight

/-- The value of the first attribute of an element with that local name. -/
def Document.attr (doc : Document) (id : NodeId) (localName : String) : Option StrTendril :=
  (doc.element id).bind fun element => (element.attrs.find? fun attr => attr.name.localName = localName).map Attr.value

namespace Style

open Net

inductive StyleError where
  | device
  | sheet (text : String)
  | url (text : String)
deriving DecidableEq, Repr

def StyleError.message : StyleError → String
  | .device => "invalid device parameters"
  | .sheet text => "stylesheet: " ++ text
  | .url text => "base url: " ++ text

inductive Origin where
  | userAgent
  | author
deriving DecidableEq, Repr

/-- A stylesheet: its text, the URL it is resolved against, and its origin. -/
structure Sheet (υ : Type) where
  css : StrTendril
  base : υ
  origin : Origin
deriving DecidableEq, Repr

structure StyleEngine (υ : Type) where
  viewport : F32 × F32
  /-- The sheets that were appended to the stylist, in order. -/
  stylist : List (Sheet υ)
  ua : List (Sheet υ)
  author : List (Sheet υ)
deriving DecidableEq, Repr

structure SheetWarning where
  urlOrHref : String
  cause : String
deriving DecidableEq, Repr

/-- Whether a list of tokens has `stylesheet` in it. -/
def relHasStylesheetToken (rel : StrTendril) : Bool :=
  ((rel.splitOnP fun c => c = ' ' ∨ c = '\t' ∨ c = '\n' ∨ c = '\x0C' ∨ c = '\r').filter fun token => !token.isEmpty).any
    fun token => Ascii.eqIgnoreCase token "stylesheet".toList

/-- The text of the text nodes below a node, in document order. -/
def textContent (doc : Document) (id : NodeId) : StrTendril :=
  (doc.descendants id).flatMap fun child =>
    match (doc.get child).map Node.kind with
    | some (.text t) => t
    | _ => []

section

variable {υ ρ : Type} (C : UrlCrate υ ρ)

namespace StyleEngine

/-- An engine for a viewport in CSS pixels, the device pixel ratio one. -/
def new (viewport : F32 × F32) : Except StyleError (StyleEngine υ) :=
  if viewport.1.isFinite ∧ viewport.2.isFinite ∧ viewport.1.isPositive ∧ viewport.2.isPositive then
    .ok { viewport, stylist := [], ua := [], author := [] }
  else .error .device

/-- Build a sheet and append it to the stylist. -/
def buildAndAppend (engine : StyleEngine υ) (css : StrTendril) (base : String) (origin : Origin) :
    Except StyleError (Sheet υ × StyleEngine υ) :=
  match C.parse base with
  | .error e => .error (.url e)
  | .ok base =>
    let sheet : Sheet υ := { css, base, origin }
    .ok (sheet, { engine with stylist := engine.stylist ++ [sheet] })

def addAuthorSheet (engine : StyleEngine υ) (css : StrTendril) (base : String) : Except StyleError (StyleEngine υ) := do
  let (sheet, engine) ← buildAndAppend C engine css base .author
  return { engine with author := engine.author ++ [sheet] }

def addUaSheetFrom (engine : StyleEngine υ) (css : StrTendril) (base : String) : Except StyleError (StyleEngine υ) := do
  let (sheet, engine) ← buildAndAppend C engine css base .userAgent
  return { engine with ua := engine.ua ++ [sheet] }

def uaBaseUrl : String := "chrome-light-ua://ua.css"

/-- Append the bundled sheet. -/
def addUaSheet (uaCss : StrTendril) (engine : StyleEngine υ) : Except StyleError (StyleEngine υ) :=
  addUaSheetFrom C engine uaCss uaBaseUrl

variable (load : υ → Except NetError Bytes)

/-- One `<link>`: its sheet is added, or a warning, or it names none. -/
def collectLink (doc : Document) (id : NodeId) (base : υ) (s : StyleEngine υ × List SheetWarning) :
    StyleEngine υ × List SheetWarning :=
  if !relHasStylesheetToken ((doc.attr id "rel").getD []) then s
  else match doc.attr id "href" with
    | none => s
    | some href =>
      match Url.join C base (.ofList href) with
      | .error e => (s.1, s.2 ++ [⟨.ofList href, e.message⟩])
      | .ok url =>
        match load url with
        | .error e => (s.1, s.2 ++ [⟨C.asStr url, e.message⟩])
        | .ok bytes =>
          match addAuthorSheet C s.1 (Utf8.lossy bytes) (C.asStr url) with
          | .error e => (s.1, s.2 ++ [⟨C.asStr url, e.message⟩])
          | .ok engine => (engine, s.2)

/-- One node of the document. -/
def collectNode (doc : Document) (base : υ) (s : StyleEngine υ × List SheetWarning) (id : NodeId) :
    Except StyleError (StyleEngine υ × List SheetWarning) :=
  match doc.element id with
  | none => .ok s
  | some element =>
    if element.name.localName = "style" then do
      let engine ← addAuthorSheet C s.1 (textContent doc id) doc.baseUrl
      return (engine, s.2)
    else if element.name.localName = "link" then .ok (collectLink C load doc id base s)
    else .ok s

/-- Add the sheets of a document in document order. -/
def collectDocumentSheets (engine : StyleEngine υ) (doc : Document) : Except StyleError (StyleEngine υ × List SheetWarning) :=
  match Url.parse C doc.baseUrl with
  | .error e => .error (.url e.message)
  | .ok base => (doc.descendants doc.root).foldlM (collectNode C load doc base) (engine, [])

end StyleEngine

end

end Style

end ChromeLight
