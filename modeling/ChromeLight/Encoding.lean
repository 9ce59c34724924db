import ChromeLight.Prescan

/-!
# The encoding of a document

`crates/html/src/encoding.rs`: the order in which the sources of an encoding are asked, and the decoding by the encoding that is
found. The encodings of `encoding_rs` and its decoders are parameters.
-/

namespace ChromeLight

/-- The decoders of `encoding_rs`, for each encoding: the text of the bytes, and whether some of them were malformed. -/
structure Decoders (ε τ : Type) where
  decodeWithBomRemoval : ε → Bytes → τ × Bool
  decodeWithoutBomHandling : ε → Bytes → τ × Bool

namespace Encoding

/-- What decided an encoding, in the order of precedence. -/
inductive EncodingSource where
  | bom
  | transportLabel
  | metaPrescan
  | default
deriving DecidableEq, Repr

variable {ε : Type} (table : Encodings ε)

/-- The encoding of a document, with what decided it: its mark, the label of its transport, its own `meta` tags, or nothing. -/
def sniffEncoding [DecidableEq ε] (bytes : Bytes) (transportLabel : Option Bytes) : ε × EncodingSource :=
  match table.forBom bytes with
  | some (encoding, _) => (encoding, .bom)
  | none =>
    match transportLabel.bind table.forLabel with
    | some encoding => (encoding, .transportLabel)
    | none =>
      match Prescan.prescanMetaCharset bytes table with
      | some encoding => (encoding, .metaPrescan)
      | none => (table.utf8, .default)

/-- The text of the bytes, by the decoder of the encoding that is sniffed. -/
def decode [DecidableEq ε] {τ : Type} (decoders : Decoders ε τ) (bytes : Bytes) (transportLabel : Option Bytes) :
    τ × ε × EncodingSource :=
  let (encoding, source) := sniffEncoding table bytes transportLabel
  let (text, _) := decoders.decodeWithBomRemoval encoding bytes
  (text, encoding, source)

end Encoding

/-- What `encoding_rs` says of its marks: three bytes are enough to find one, and decoding removes one exactly if it is of the
encoding that is decoded. -/
structure Decoders.Lawful {ε τ : Type} [DecidableEq ε] (decoders : Decoders ε τ) (table : Encodings ε) : Prop where
  forBom_append : ∀ bytes more, 3 ≤ bytes.length → table.forBom (bytes ++ more) = table.forBom bytes
  removal : ∀ encoding bytes, decoders.decodeWithBomRemoval encoding bytes =
    match table.forBom bytes with
    | some (marked, length) => decoders.decodeWithoutBomHandling encoding (if encoding = marked then bytes.drop length else bytes)
    | none => decoders.decodeWithoutBomHandling encoding bytes

end ChromeLight
