import ChromeLight.Prescan
import Mathlib.Data.Prod.Lex

/-!
# The loops of the prescan

The prescan as one loop over its loops: where `crates/html/src/prescan.rs` has a loop, this has a state for its head (`Loop`), with
the variables that live across its iterations, and one step is one iteration of the loop the scan is in (`loopStep`). Functions
without a loop are those of the model, and so is noting an attribute, but for the `content` of a tag that has no charset yet, which
is searched by loops of its own (`Extract`).
-/

namespace ChromeLight

namespace Prescan

/-! ## The content of a meta tag -/

/-- The loops of `extract_encoding_from_meta_content`, each at the position it moves along. -/
inductive Extract where
  /-- The search for the next `charset`. -/
  | search (start : Nat)
  /-- The spaces between it and an equals sign. -/
  | equals (p : Nat)
  /-- The spaces before the label. -/
  | label (p : Nat)
  | quoted (quote : UInt8) (start stop : Nat)
  | unquoted (start stop : Nat)
deriving DecidableEq, Repr

namespace Extract

def pos : Extract → Nat
  | search start => start
  | equals p | label p => p
  | quoted _ _ stop | unquoted _ stop => stop

/-- Two loops may hand over at the position they stand at. -/
def rank : Extract → Nat
  | equals _ | label _ => 1
  | search _ | quoted _ _ _ | unquoted _ _ => 0

/-- One iteration of the loop the search is in: the label at the end of the last one. -/
def step (content : Bytes) : Extract → Extract ⊕ Option Bytes
  | search start =>
    match findSubslice content start charsetWord with
    | none => .inr none
    | some found => .inl (equals (found + charsetWord.length))
  | equals p =>
    match byte content p with
    | none => .inl (search p)
    | some b => if isAsciiWs b then .inl (equals (p + 1)) else if b == '='.toUInt8 then .inl (label (p + 1)) else .inl (search p)
  | label p =>
    match byte content p with
    | none => .inr none
    | some b =>
      if isAsciiWs b then .inl (label (p + 1))
      else if isQuote b then .inl (quoted b (p + 1) (p + 1))
      else .inl (unquoted p p)
  | quoted quote start stop =>
    match byte content stop with
    | none => .inr none
    | some b => if b == quote then .inr (slice content start stop) else .inl (quoted quote start (stop + 1))
  | unquoted start stop =>
    match byte content stop with
    | none => .inr (slice content start stop)
    | some b =>
      if isAsciiWs b || b == ';'.toUInt8 then .inr (slice content start stop) else .inl (unquoted start (stop + 1))

end Extract

/-! ## The loops over the window -/

/-- A loop over the bytes of the window. An attribute is got for a tag: a `meta` tag with its variables, or another tag. -/
inductive Loop (ε : Type) where
  | scan
  /-- The loop of `skip_comment`. -/
  | comment
  /-- The name of another tag, in `skip_generic_tag`. -/
  | tagName
  /-- The loop of `skip_to_gt`. -/
  | toGt
  /-- The spaces and slashes `get_attribute` begins with. -/
  | getAttribute (tag : Option (MetaAttributes ε))
  | name (tag : Option (MetaAttributes ε)) (name : Bytes)
  /-- The spaces of `after_name_whitespace`. -/
  | spaces (tag : Option (MetaAttributes ε)) (name : Bytes)
  /-- The spaces of `read_attribute_value`. -/
  | value (tag : Option (MetaAttributes ε)) (name : Bytes)
  | quoted (tag : Option (MetaAttributes ε)) (quote : UInt8) (name value : Bytes)
  | unquoted (tag : Option (MetaAttributes ε)) (name value : Bytes)

/-- The loop the scan is in: one over the window, at a position, or one over the content of a `meta` tag. -/
inductive LoopState (ε : Type) where
  | window (loop : Loop ε) (pos : Nat)
  | content (tag : MetaAttributes ε) (content : Bytes) (e : Extract)

namespace LoopState

variable {ε : Type}

/-- The scan starts at the first byte. -/
def start : LoopState ε := .window .scan 0

/-- The position in the window. -/
def pos : LoopState ε → Nat
  | .window _ pos => pos
  | .content tag _ _ => tag.pos

end LoopState

variable {ε : Type} (bytes : Bytes) (table : Encodings ε)

/-- The variables of a `meta` tag after its content was searched. -/
def MetaAttributes.extracted (s : MetaAttributes ε) : Option ε → MetaAttributes ε
  | some enc => { s with charset := some (some enc), needPragma := some true }
  | none => s

/-- What comes after an attribute of a tag. -/
def afterAttribute (tag : Option (MetaAttributes ε)) (name value : Bytes) (pos : Nat) : LoopState ε :=
  match tag with
  | none => .window (.getAttribute none) pos
  | some s =>
    if name == ascii "content" && !s.seenNames.any (· == name) && s.charset.isNone then
      .content { s with pos, seenNames := s.seenNames ++ [name] } value (.search 0)
    else .window (.getAttribute (some ({ s with pos }.note table name value))) pos

/-- The start of an iteration of the scan, at a position in the window. -/
def scanStart (pos : Nat) : LoopState ε :=
  if startsWithAt bytes pos (ascii "<!--") then .window .comment (pos + 4)
  else
    match matchMetaStart bytes pos with
    | some afterTagSpace => .window (.getAttribute (some { pos := afterTagSpace })) afterTagSpace
    | none =>
      match genericTagNameStart bytes pos with
      | some nameStart => .window .tagName nameStart
      | none =>
        if startsWithBangSlashOrQuestion bytes pos then .window .toGt (pos + 2) else .window .scan (pos + 1)

variable [DecidableEq ε]

/-- What comes after the decision of a `meta` tag. -/
def afterOutcome : TagOutcome ε → LoopState ε ⊕ Option ε
  | .continueAt pos => .inl (.window .scan (pos + 1))
  | .found enc => .inr (some enc)
  | .eof => .inr none

/-- What comes after the end of a tag. -/
def afterTag (tag : Option (MetaAttributes ε)) (pos : Nat) : LoopState ε ⊕ Option ε :=
  match tag with
  | none => .inl (.window .scan (pos + 1))
  | some s => afterOutcome (s.outcome table pos)

/-- One iteration of a loop over the window, at a byte. -/
def loopStepAt (pos : Nat) (b : UInt8) : Loop ε → LoopState ε ⊕ Option ε
  | .scan => .inl (scanStart bytes pos)
  | .comment =>
    if b == '>'.toUInt8 && byteBefore bytes pos 1 == some '-'.toUInt8 && byteBefore bytes pos 2 == some '-'.toUInt8 then
      .inl (.window .scan (pos + 1))
    else .inl (.window .comment (pos + 1))
  | .tagName =>
    if isAsciiWs b || b == '>'.toUInt8 then .inl (.window (.getAttribute none) pos) else .inl (.window .tagName (pos + 1))
  | .toGt => if b == '>'.toUInt8 then .inl (.window .scan (pos + 1)) else .inl (.window .toGt (pos + 1))
  | .getAttribute tag =>
    if isWsOrSlash b then .inl (.window (.getAttribute tag) (pos + 1))
    else if b == '>'.toUInt8 then afterTag table tag pos
    else .inl (.window (.name tag []) pos)
  | .name tag name =>
    if b == '='.toUInt8 && !name.isEmpty then .inl (.window (.value tag name) (pos + 1))
    else if isAsciiWs b then .inl (.window (.spaces tag name) pos)
    else if b == '/'.toUInt8 || b == '>'.toUInt8 then .inl (afterAttribute table tag name [] pos)
    else .inl (.window (.name tag (name ++ [asciiLower b])) (pos + 1))
  | .spaces tag name =>
    if isAsciiWs b then .inl (.window (.spaces tag name) (pos + 1))
    else if b == '='.toUInt8 then .inl (.window (.value tag name) (pos + 1))
    else .inl (afterAttribute table tag name [] pos)
  | .value tag name =>
    if isAsciiWs b then .inl (.window (.value tag name) (pos + 1))
    else if isQuote b then .inl (.window (.quoted tag b name []) (pos + 1))
    else if b == '>'.toUInt8 then .inl (afterAttribute table tag name [] pos)
    else .inl (.window (.unquoted tag name []) pos)
  | .quoted tag quote name value =>
    if b == quote then .inl (afterAttribute table tag name value (pos + 1))
    else .inl (.window (.quoted tag quote name (value ++ [asciiLower b])) (pos + 1))
  | .unquoted tag name value =>
    if isAsciiWs b || b == '>'.toUInt8 then .inl (afterAttribute table tag name value pos)
    else .inl (.window (.unquoted tag name (value ++ [asciiLower b])) (pos + 1))

/-- One iteration of the loop the scan is in. At the end of the window every loop over it ends the scan. -/
def loopStep : LoopState ε → LoopState ε ⊕ Option ε
  | .window loop pos =>
    match byte bytes pos with
    | none => .inr none
    | some b => loopStepAt bytes table pos b loop
  | .content tag content e =>
    match e.step content with
    | .inl e => .inl (.content tag content e)
    | .inr label => .inl (.window (.getAttribute (some (tag.extracted (label.bind table.forLabel)))) tag.pos)

/-! ## What decreases -/

/-- A loop hands over to one of lower rank where it leaves the position as it is. A name that begins takes its first byte. -/
def Loop.rank {ε : Type} : Loop ε → Nat
  | .scan | .comment | .toGt | .quoted _ _ _ _ | .name _ [] => 0
  | .getAttribute _ => 1
  | .tagName | .unquoted _ _ _ | .spaces _ _ => 3
  | .value _ _ | .name _ (_ :: _) => 4

namespace LoopState

variable {ε : Type}

def rank : LoopState ε → Nat
  | window loop _ => loop.rank
  | content _ _ _ => 2

/-- What is left to search of a content. -/
def rest : LoopState ε → Nat
  | window _ _ => 0
  | content _ value e => 2 * (value.length - e.pos) + e.rank

/-- What is left of the window, then the rank of the loop, then what is left of the content. -/
def measure (bytes : Bytes) (s : LoopState ε) : ℕ ×ₗ ℕ ×ₗ ℕ := toLex (bytes.length - s.pos, toLex (s.rank, s.rest))

end LoopState

/-- How many bytes after its position an iteration looks at. -/
def lookahead : Nat := 5

end Prescan

end ChromeLight
