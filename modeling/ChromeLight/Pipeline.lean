import ChromeLight.Block
import ChromeLight.Build
import ChromeLight.Encoding
import ChromeLight.Fonts
import ChromeLight.Glyphs
import ChromeLight.Sheets
import ChromeLight.Theorems.TreeSink

/-!
# The render pipeline

`crates/testshell`: from the bytes of a document to pixels, through every stage in turn. What is not of this repository, or is data
of it that nothing here looks into, is a field of `Engines`. The dumps of the stages are left out: they change nothing.
-/

namespace ChromeLight

open DomSink (TreeCall)
open Net (UrlCrate FileSystem NetError)
open Style (StyleEngine StyleError SheetWarning)
open Fonts (FontError)

/-- What the pipeline is made of: `υ` are URLs, `ρ` paths, `ε` encodings, and `δ` font files. -/
structure Engines (υ ρ ε δ : Type) where
  urls : UrlCrate υ ρ
  files : FileSystem ρ
  encodings : Encodings ε
  decoders : Decoders ε StrTendril
  /-- What html5ever asks of the sink for a text. -/
  treeBuilder : StrTendril → List TreeCall
  /-- The bundled sheet. -/
  uaCss : StrTendril
  /-- Stylo's cascade over the sheets of an engine, adapted to layout. -/
  cascade : StyleEngine υ → Document → NodeId → Option LayoutStyle
  register : Fonts.Registrar δ
  ahem : δ
  notoSans : δ
  parses : δ → UInt32 → Bool
  parley : Fonts.ParleyBreaker δ
  floats : FloatOps
  textFloats : F32Ops
  raster : Gfx.Backend

inductive ShellError where
  | sizeMismatch (aW aH bW bH : UInt32)
  | io (text : String)
  | net (error : NetError)
  | style (error : StyleError)
  | font (error : FontError)
  | layout (error : LayoutError)
  | gfx (error : Gfx.GfxError)
deriving DecidableEq, Repr

/-! ## What the errors say -/

def Fonts.FontError.message (debug : String → String) : FontError → String
  | .noFacesRegistered name => "bundled font `" ++ name ++ "` registered zero font faces"
  | .unexpectedFamilyCount name count =>
    "bundled font `" ++ name ++ "` registered " ++ toString count ++ " distinct families, expected exactly 1"
  | .unexpectedFamilyName expected actual =>
    "bundled font `" ++ expected ++ "` registered under unexpected family name " ++ debug actual

def LayoutError.message : LayoutError → String
  | .fontNotBundled family => "text was shaped with a font that is not bundled: " ++ family

def DisplayListError.message : DisplayListError → String
  | .tooManyItems count max => "display list has " ++ toString count ++ " items, over the limit of " ++ toString max
  | .tooManyGlyphs index => "item " ++ toString index ++ ": glyph run exceeds the per-run glyph limit"
  | .invalidRect index => "item " ++ toString index ++ ": invalid rect geometry"
  | .outOfBounds index => "item " ++ toString index ++ ": geometry lies outside the validated bounds"
  | .popWithoutPush index => "item " ++ toString index ++ ": PopClip with no matching PushClip"
  | .tooDeepClip index max => "item " ++ toString index ++ ": clip nesting exceeds the limit of " ++ toString max
  | .unbalancedClip depthAtEnd => "clip stack unbalanced: depth " ++ toString depthAtEnd ++ " left open at the end of the list"
  | .invalidBounds => "display list bounds are invalid"

def Gfx.GfxError.message : Gfx.GfxError → String
  | .invalid error => "display list failed validation: " ++ error.message
  | .pixmapTooLarge width height => "cannot allocate a " ++ toString width ++ "x" ++ toString height ++ " pixmap"
  | .fontNotBundled key =>
    "glyph run names font key FontKey(" ++ toString key.key.toNat ++ "), which is not in the bundled font database"
  | .font message => "bundled font bytes failed to parse: " ++ message

/-- The text of an error; `debug` is `Debug` of strings. -/
def ShellError.message (debug : String → String) : ShellError → String
  | .sizeMismatch aW aH bW bH =>
    "size mismatch: " ++ toString aW.toNat ++ "x" ++ toString aH.toNat ++ " vs " ++ toString bW.toNat ++ "x" ++ toString bH.toNat
  | .io text => "io: " ++ text
  | .net error => "net: " ++ error.message
  | .style error => "style: " ++ error.message
  | .font error => "fonts: " ++ error.message debug
  | .layout error => "layout: " ++ error.message
  | .gfx error => "gfx: " ++ error.message

structure RenderOutput where
  pixmap : Gfx.Pixmap
  warnings : List String

/-- A parsed document, with the tree that its links are. -/
def parseTree (baseUrl : String) (calls : List TreeCall) : Part { document : Document // ∃ kids, document.Tree kids } where
  Dom := (DomSink.parse baseUrl calls).Dom
  get h := ⟨((DomSink.parse baseUrl calls).get h).document, by
    obtain ⟨output, kids, hparse, t, -⟩ := DomSink.tree_of_parse baseUrl calls
    refine ⟨kids, ?_⟩
    rw [Part.get_eq_of_mem (Part.eq_some_iff.1 hparse) h]
    exact t⟩

def formatWarning (warning : SheetWarning) : String := warning.urlOrHref ++ ": " ++ warning.cause

namespace Engines

variable {υ ρ ε δ : Type} [DecidableEq ε] [DecidableEq δ] (E : Engines υ ρ ε δ)

/-- `load_sheet`. -/
def loadSheet (url : υ) : Except NetError Bytes := Net.loadFile E.urls E.files url

/-- The text of a document's bytes. -/
def text (bytes : Bytes) : StrTendril := (Encoding.decode E.encodings E.decoders bytes none).1

def parseDocument (bytes : Bytes) (base : υ) : Part { document : Document // ∃ kids, document.Tree kids } :=
  parseTree (E.urls.asStr base) (E.treeBuilder (E.text bytes))

/-- The engine with the sheets of a document, and the warnings about them. -/
def collectSheets (width height : UInt32) (document : Document) : Except StyleError (StyleEngine υ × List SheetWarning) := do
  let engine ← StyleEngine.new (.ofU32 width, .ofU32 height)
  let engine ← StyleEngine.addUaSheet E.urls E.uaCss engine
  StyleEngine.collectDocumentSheets E.urls E.loadSheet engine document

/-- Layout, painting and rasterization of a styled document. -/
def paintDocument (styled : StyledDocument) (fonts : Fonts.FontDb δ) (width height : UInt32) : Part (Except ShellError Gfx.Pixmap) := do
  match ← Block.layout E.floats (Fonts.textShaper E.textFloats fonts E.parley) styled (viewportOf width height) with
  | .error e => .some (.error (.layout e))
  | .ok fragments =>
    let displayList ← Paint.build E.floats fragments styled.document
    match Gfx.rasterizeWithStats E.raster (fonts.rasterDb E.parses) displayList width.toNat height.toNat with
    | .error e => .some (.error (.gfx e))
    | .ok (pixmap, _) => .some (.ok pixmap)

def renderBytes (bytes : Bytes) (base : υ) (width height : UInt32) : Part (Except ShellError RenderOutput) := do
  let ⟨document, isTree⟩ ← E.parseDocument bytes base
  match E.collectSheets width height document with
  | .error e => .some (.error (.style e))
  | .ok (engine, warnings) =>
    match Fonts.FontDb.bundled E.register E.ahem E.notoSans with
    | .error e => .some (.error (.font e))
    | .ok fonts =>
      match ← E.paintDocument { document, isTree, computed := E.cascade engine document } fonts width height with
      | .error e => .some (.error e)
      | .ok pixmap => .some (.ok { pixmap, warnings := warnings.map formatWarning })

def renderFile (path : ρ) (width height : UInt32) : Part (Except ShellError RenderOutput) :=
  match E.files.canonicalize path with
  | .error e => .some (.error (.io e))
  | .ok canonical =>
    match Net.Url.fromFilePath E.urls canonical with
    | .error e => .some (.error (.net e))
    | .ok base =>
      match Net.loadFile E.urls E.files base with
      | .error e => .some (.error (.net e))
      | .ok bytes => E.renderBytes bytes base width height

end Engines

end ChromeLight
