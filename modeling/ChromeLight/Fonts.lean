import ChromeLight.Lib.Ascii
import ChromeLight.Raster
import ChromeLight.Text

/-!
# The bundled fonts

`crates/fonts`: the database of the two bundled files, and the ways a face is found in it: by its key, by a family name, and, in
the text shaper, by the font a run was shaped with. What `fontique` registers for a file is a parameter (`Registrar`), and so are
the lines `parley` makes (`ParleyBreaker`).

`δ` is the type of font files: slices of bytes, told apart by their address and their length.
-/

namespace ChromeLight

/-- `str::eq_ignore_ascii_case`. -/
def eqIgnoreAsciiCase (a b : String) : Bool := Ascii.eqIgnoreCase a.toList b.toList

namespace Fonts

def ahemFamily : String := "Ahem"

def notoSansFamily : String := "Noto Sans"

structure FontFace (δ : Type) where
  key : FontKey
  family : String
  data : δ
  /-- Its index in the file. -/
  index : UInt32
deriving DecidableEq, Repr

structure FontDb (δ : Type) where
  faces : List (FontFace δ)
deriving DecidableEq, Repr

inductive FontError where
  | noFacesRegistered (name : String)
  | unexpectedFamilyCount (name : String) (count : Nat)
  | unexpectedFamilyName (expected actual : String)
deriving DecidableEq, Repr

/-- The families `fontique` finds in a file: the name of each, and the index of each of its faces. -/
abbrev Registrar (δ : Type) := δ → List (Option String × List UInt32)

section

variable {δ : Type} (register : Registrar δ)

/-- One more face, under the key of its position. -/
def pushFace (data : δ) (family : String) (faces : List (FontFace δ)) (index : UInt32) : List (FontFace δ) :=
  faces ++ [{ key := ⟨.ofNat (min faces.length u32Max)⟩, family, data, index }]

def registerBundledFace (data : δ) (expectedFamily : String) (faces : List (FontFace δ)) :
    Except FontError (List (FontFace δ)) :=
  match register data with
  | [] => .error (.noFacesRegistered expectedFamily)
  | [(name, indices)] =>
    if name.getD "" ≠ expectedFamily then .error (.unexpectedFamilyName expectedFamily (name.getD ""))
    else .ok (indices.foldl (pushFace data expectedFamily) faces)
  | registered => .error (.unexpectedFamilyCount expectedFamily registered.length)

/-- The database of the two bundled files. -/
def FontDb.bundled (ahem notoSans : δ) : Except FontError (FontDb δ) := do
  let faces ← registerBundledFace register ahem ahemFamily []
  let faces ← registerBundledFace register notoSans notoSansFamily faces
  return { faces }

namespace FontDb

variable (db : FontDb δ)

def families : List String := db.faces.map FontFace.family

def face (key : FontKey) : Option (FontFace δ) := db.faces[key.key.toNat]?

def keyFor (family : String) : Option FontKey :=
  match db.faces.find? fun face => eqIgnoreAsciiCase face.family family with
  | some face => some face.key
  | none =>
    if eqIgnoreAsciiCase family "sans-serif" || eqIgnoreAsciiCase family "monospace" then
      (db.faces.find? fun face => face.family = notoSansFamily).map FontFace.key
    else none

/-- The faces the rasterizer looks keys up in. -/
def rasterDb (parses : δ → UInt32 → Bool) : Gfx.FontDb := fun key =>
  (db.face key).map fun face => { family := face.family, index := face.index.toNat, parses := parses face.data face.index }

/-- The faces the text shaper keeps: for each family the face its name resolves to. -/
def shaperFaces : List (FontFace δ) := db.families.filterMap fun family => (db.keyFor family).bind db.face

end FontDb

end

/-! ## Shaped lines -/

/-- The font of a run, as `parley` names it. -/
structure FontData (δ : Type) where
  data : δ
  index : UInt32
deriving DecidableEq, Repr

/-- The key of the face a font is. -/
def keyForFont {δ : Type} [DecidableEq δ] (faces : List (FontFace δ)) (font : FontData δ) : Option FontKey :=
  (faces.find? fun face => face.index = font.index ∧ face.data = font.data).map FontFace.key

/-- A run of a line as `parley` shaped it. -/
structure ParleyRun (δ : Type) where
  font : FontData δ
  fontSize : F32
  clusters : List Text.ShapedCluster
deriving DecidableEq, Repr

structure ParleyLine (δ : Type) where
  runs : List (ParleyRun δ)
  offset : F32
  inlineMinCoord : F32
  baseline : F32
  blockMinCoord : F32
deriving DecidableEq, Repr

/-- Shaping and line breaking by `parley`. -/
abbrev ParleyBreaker (δ : Type) := StrTendril → List InlineItem → List Text.Span → LayoutStyle → Au → List (ParleyLine δ)

section

variable {δ : Type} [DecidableEq δ] (faces : List (FontFace δ))

def ParleyRun.shaped (run : ParleyRun δ) : Text.ShapedRun where
  font := keyForFont faces run.font
  fontSize := run.fontSize
  clusters := run.clusters

def ParleyLine.shaped (line : ParleyLine δ) : Text.ShapedLine where
  runs := line.runs.map (ParleyRun.shaped faces)
  offset := line.offset
  inlineMinCoord := line.inlineMinCoord
  baseline := line.baseline
  blockMinCoord := line.blockMinCoord

/-- The lines of `parley`, the font of each run looked up. -/
def lineBreaker (parley : ParleyBreaker δ) : Text.LineBreaker := fun text items spans style availableWidth =>
  (parley text items spans style availableWidth).map (ParleyLine.shaped faces)

/-- The text shaper over a database. -/
def textShaper (O : F32Ops) (db : FontDb δ) (parley : ParleyBreaker δ) : Shaper :=
  Text.layoutInline O (lineBreaker db.shaperFaces parley)

end

end Fonts

end ChromeLight
