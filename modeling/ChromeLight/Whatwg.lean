import ChromeLight.Prescan

/-!
# Prescanning a byte stream to determine its encoding

The algorithm as the HTML standard states it, one step after the other: each of its labels and loops is a `Label`, and `step`
does what stands there with the byte at the position. Getting an attribute and extracting a character encoding from a `meta`
element are part of the machine, with the variables of the steps they were called from. Where the position is past the end
of the bytes the algorithm is aborted, whatever the step. The steps for declarations in UTF-16 and XML are left out.
-/

namespace ChromeLight

namespace Whatwg

variable {ε : Type}

/-- ASCII whitespace. -/
def spaces : Bytes := [0x09, 0x0A, 0x0C, 0x0D, 0x20]

/-- A byte in the range of the upper case letters stands for the lower case letter. -/
def lower (b : UInt8) : UInt8 := if 0x41 ≤ b ∧ b ≤ 0x5A then b + 0x20 else b

/-- A value of `charset`: null, which no label stands for, the failure to get an encoding, or an encoding. -/
inductive Charset (ε : Type) where
  | null
  | failure
  | encoding (e : ε)

/-- Getting an encoding from a label. -/
def Charset.ofLabel (table : Encodings ε) (label : Bytes) : Charset ε :=
  match table.forLabel label with
  | some e => .encoding e
  | none => .failure

/-- The variables of the steps for a `meta` tag. -/
structure Meta (ε : Type) where
  attributeList : List Bytes := []
  gotPragma : Bool := false
  needPragma : Option Bool := none
  charset : Charset ε := .null

/-- A character encoding was returned for the value of a `content` attribute, or none. -/
def Meta.content (m : Meta ε) (encoding : Option ε) : Meta ε :=
  match encoding, m.charset with
  | some e, .null => { m with charset := .encoding e, needPragma := some true }
  | _, _ => m

/-- Where the algorithm is. The variables of a `meta` tag are there while its attributes are got, not while those of another
tag are. -/
inductive Label (ε : Type) where
  | loop
  | nextByte
  | processing (m : Meta ε)
  /-- Get an attribute. -/
  | getAttribute (tag : Option (Meta ε))
  | name (tag : Option (Meta ε)) (name : Bytes)
  | spaces (tag : Option (Meta ε)) (name : Bytes)
  | value (tag : Option (Meta ε)) (name : Bytes)
  | quoteLoop (tag : Option (Meta ε)) (name : Bytes) (quote : UInt8) (value : Bytes)
  | quoted (tag : Option (Meta ε)) (name : Bytes) (quote : UInt8) (value : Bytes)
  | unquoted (tag : Option (Meta ε)) (name value : Bytes)
  /-- There is an attribute. -/
  | sniffed (tag : Option (Meta ε)) (name value : Bytes)
  /-- Extract a character encoding from a string, from a position in it on. -/
  | extract (m : Meta ε) (string : Bytes) (start : Nat)

/-- There is no attribute. -/
def Label.noAttribute : Option (Meta ε) → Label ε
  | some m => .processing m
  | none => .nextByte

structure State (ε : Type) where
  label : Label ε
  position : Nat

/-! ## Sequences and positions -/

/-- Whether bytes start with bytes of these kinds. -/
def Begins : List (UInt8 → Bool) → Bytes → Bool
  | [], _ => true
  | _ :: _, [] => false
  | kind :: kinds, b :: bytes => kind b && Begins kinds bytes

def oneOf (bytes : Bytes) (b : UInt8) : Bool := b ∈ bytes

def isAlpha (b : UInt8) : Bool := (0x41 ≤ b && b ≤ 0x5A) || (0x61 ≤ b && b ≤ 0x7A)

/-- The start of a comment. -/
def commentStart : List (UInt8 → Bool) := [oneOf [0x3C], oneOf [0x21], oneOf [0x2D], oneOf [0x2D]]

/-- The start of a `meta` tag, in upper or lower case and with a space or slash. -/
def metaStart : List (UInt8 → Bool) :=
  [oneOf [0x3C], oneOf [0x4D, 0x6D], oneOf [0x45, 0x65], oneOf [0x54, 0x74], oneOf [0x41, 0x61], oneOf (spaces ++ [0x2F])]

/-- The start of a tag, and of an end tag. -/
def tagStart : List (UInt8 → Bool) := [oneOf [0x3C], isAlpha]

def endTagStart : List (UInt8 → Bool) := [oneOf [0x3C], oneOf [0x2F], isAlpha]

/-- The start of a declaration, an end tag or a processing instruction. -/
def otherStart : List (UInt8 → Bool) := [oneOf [0x3C], oneOf [0x21, 0x2F, 0x3F]]

/-- The first position from one on with a property, of a list of that length. -/
def first (length start : Nat) (P : Nat → Bool) : Option Nat := (List.range length).find? fun q => start ≤ q && P q

/-- The position after the spaces at a position. -/
def skipSpaces (string : Bytes) (position : Nat) : Nat :=
  position + ((string.drop position).takeWhile (· ∈ spaces)).length

/-- The label at a position of a string: between two quotes of a kind, or up to a space, a semicolon or the end. -/
def labelAt (string : Bytes) (position : Nat) : Option Bytes :=
  match string[position]? with
  | none => none
  | some c =>
    if c = 0x22 ∨ c = 0x27 then
      (first string.length (position + 1) fun q => string[q]? = some c).map fun q =>
        (string.drop (position + 1)).take (q - (position + 1))
    else some ((string.drop position).takeWhile fun c => c ∉ spaces ∧ c ≠ 0x3B)

/-! ## The algorithm -/

variable (table : Encodings ε) (bytes : Bytes)

/-- Advance the position so that it points at the first byte after it with a property, and go on from there. -/
def advance (position : Nat) (P : Nat → Bool) (label : Label ε) : State ε ⊕ Option ε :=
  match first bytes.length (position + 1) P with
  | none => .inr none
  | some q => .inl ⟨label, q⟩

/-- The variables of a `meta` tag after an attribute other than `content`. -/
def Meta.note (m : Meta ε) (name value : Bytes) : Meta ε :=
  if name = ascii "http-equiv" then if value = ascii "content-type" then { m with gotPragma := true } else m
  else if name = ascii "charset" then { m with charset := .ofLabel table value, needPragma := some false }
  else m

/-- One step of the algorithm, with the byte `b` at the position. -/
def stepAt [DecidableEq ε] (position : Nat) (b : UInt8) : Label ε → State ε ⊕ Option ε
  | .loop =>
    if Begins commentStart (bytes.drop position) then
      advance bytes position
        (fun q => bytes[q]? = some 0x3E ∧ bytes[q - 1]? = some 0x2D ∧ bytes[q - 2]? = some 0x2D) .nextByte
    else if Begins metaStart (bytes.drop position) then .inl ⟨.getAttribute (some {}), position + 5⟩
    else if Begins tagStart (bytes.drop position) ∨ Begins endTagStart (bytes.drop position) then
      advance bytes position (fun q => ∃ b ∈ bytes[q]?, b ∈ spaces ++ [0x3E]) (.getAttribute none)
    else if Begins otherStart (bytes.drop position) then
      advance bytes position (fun q => bytes[q]? = some 0x3E) .nextByte
    else .inl ⟨.nextByte, position⟩
  | .nextByte => .inl ⟨.loop, position + 1⟩
  | .processing m =>
    if m.needPragma = none then .inl ⟨.nextByte, position⟩
    else if m.needPragma = some true ∧ m.gotPragma = false then .inl ⟨.nextByte, position⟩
    else
      match m.charset with
      | .encoding e =>
        let e := if e = table.utf16Be ∨ e = table.utf16Le then table.utf8 else e
        let e := if e = table.xUserDefined then table.windows1252 else e
        .inr (some e)
      | _ => .inl ⟨.nextByte, position⟩
  | .getAttribute tag =>
    if b ∈ spaces ++ [0x2F] then .inl ⟨.getAttribute tag, position + 1⟩
    else if b = 0x3E then .inl ⟨.noAttribute tag, position⟩
    else .inl ⟨.name tag [], position⟩
  | .name tag name =>
    if b = 0x3D ∧ name ≠ [] then .inl ⟨.value tag name, position + 1⟩
    else if b ∈ spaces then .inl ⟨.spaces tag name, position⟩
    else if b = 0x2F ∨ b = 0x3E then .inl ⟨.sniffed tag name [], position⟩
    else .inl ⟨.name tag (name ++ [lower b]), position + 1⟩
  | .spaces tag name =>
    if b ∈ spaces then .inl ⟨.spaces tag name, position + 1⟩
    else if b ≠ 0x3D then .inl ⟨.sniffed tag name [], position⟩
    else .inl ⟨.value tag name, position + 1⟩
  | .value tag name =>
    if b ∈ spaces then .inl ⟨.value tag name, position + 1⟩
    else if b = 0x22 ∨ b = 0x27 then .inl ⟨.quoteLoop tag name b [], position⟩
    else if b = 0x3E then .inl ⟨.sniffed tag name [], position⟩
    else .inl ⟨.unquoted tag name [lower b], position + 1⟩
  | .quoteLoop tag name quote value => .inl ⟨.quoted tag name quote value, position + 1⟩
  | .quoted tag name quote value =>
    if b = quote then .inl ⟨.sniffed tag name value, position + 1⟩
    else .inl ⟨.quoteLoop tag name quote (value ++ [lower b]), position⟩
  | .unquoted tag name value =>
    if b ∈ spaces ∨ b = 0x3E then .inl ⟨.sniffed tag name value, position⟩
    else .inl ⟨.unquoted tag name (value ++ [lower b]), position + 1⟩
  | .sniffed none _ _ => .inl ⟨.getAttribute none, position⟩
  | .sniffed (some m) name value =>
    if name ∈ m.attributeList then .inl ⟨.getAttribute (some m), position⟩
    else
      let m := { m with attributeList := m.attributeList ++ [name] }
      if name = ascii "content" then .inl ⟨.extract m value 0, position⟩
      else .inl ⟨.getAttribute (some (m.note table name value)), position⟩
  | .extract m string start =>
    match first string.length start fun q => ((string.drop q).take 7).map lower = ascii "charset" with
    | none => .inl ⟨.getAttribute (some m), position⟩
    | some q =>
      let next := skipSpaces string (q + 7)
      if string[next]? = some 0x3D then
        let encoding := (labelAt string (skipSpaces string (next + 1))).bind table.forLabel
        .inl ⟨.getAttribute (some (m.content encoding)), position⟩
      else .inl ⟨.extract m string next, position⟩

def step [DecidableEq ε] (s : State ε) : State ε ⊕ Option ε :=
  match bytes[s.position]? with
  | none => .inr none
  | some b => stepAt table bytes s.position b s.label

/-- The result of the algorithm on those bytes. -/
def prescan [DecidableEq ε] : Part (Option ε) := While.loop (step table bytes) ⟨.loop, 0⟩

end Whatwg

end ChromeLight
