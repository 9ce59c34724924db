import ChromeLight.Lib.Scan
import ChromeLight.Lib.While

/-!
# The meta prescan

The scan of the first bytes of a document for the `meta` tag that says how the document is encoded, as
`crates/html/src/prescan.rs` has it. A slice of bytes is a list and a position a natural number: positions pass the end of the
slice by a few bytes at most, so that the saturating additions of the source never saturate. A function that moves a position
along returns the new position next to its result. The encodings of `encoding_rs` are a parameter: its label table
(`Encoding::for_label`), its byte-order marks (`Encoding::for_bom`) and the encodings the scan knows by name.
-/

namespace ChromeLight

/-- The bytes of a document, or of a part of it. -/
abbrev Bytes := List UInt8

/-- The label table of the encodings, their byte-order marks, and the encodings the prescan knows by name. -/
structure Encodings (ε : Type) where
  forLabel : Bytes → Option ε
  /-- The encoding of the byte-order mark at the start of the bytes, and the length of the mark. -/
  forBom : Bytes → Option (ε × Nat)
  utf8 : ε
  utf16Be : ε
  utf16Le : ε
  xUserDefined : ε
  windows1252 : ε
  utf8_ne_xUserDefined : utf8 ≠ xUserDefined

/-- The bytes of a literal. -/
def ascii (s : String) : Bytes := s.toList.map Char.toUInt8

namespace Prescan

/-- How many bytes are looked at. -/
def prescanLimitBytes : Nat := 1024

/-- White space of ASCII. -/
def isAsciiWs (b : UInt8) : Bool := b == 0x09 || b == 0x0A || b == 0x0C || b == 0x0D || b == 0x20

/-- What stands between attributes. -/
def isWsOrSlash (b : UInt8) : Bool := isAsciiWs b || b == '/'.toUInt8

/-- An uppercase letter of ASCII. -/
def isAsciiUppercase (b : UInt8) : Bool := 0x41 ≤ b && b ≤ 0x5A

/-- A letter of ASCII. -/
def isAsciiAlphabetic (b : UInt8) : Bool := isAsciiUppercase b || (0x61 ≤ b && b ≤ 0x7A)

/-- The byte in lower case. -/
def asciiLower (b : UInt8) : UInt8 := if isAsciiUppercase b then b + 0x20 else b

/-- What a value may be quoted by. -/
def isQuote (b : UInt8) : Bool := b == '"'.toUInt8 || b == '\''.toUInt8

variable {ε : Type} (bytes : Bytes)

/-- The byte at a position, if there is one. -/
def byte (pos : Nat) : Option UInt8 := bytes[pos]?

/-- `at` of the source, a keyword in Lean. -/
def byteAt (pos offset : Nat) : Option UInt8 := byte bytes (pos + offset)

/-- The first position from one on whose byte does not match. -/
def skipWhile (pred : UInt8 → Bool) (pos : Nat) : Nat :=
  match _h : byte bytes pos with
  | some b => if pred b then skipWhile pred (pos + 1) else pos
  | none => pos
termination_by bytes.length - pos
decreasing_by
  have := Scan.lt_of_get ‹byte bytes pos = some b›
  omega

/-- Whether the needle stands at a position. -/
def startsWithAt (pos : Nat) (needle : Bytes) : Bool :=
  (List.range needle.length).all fun i => byteAt bytes pos i == needle[i]?

/-- The sublists of that length, from left to right. -/
def windows (n : Nat) (xs : Bytes) : List Bytes := (List.range (xs.length + 1 - n)).map fun i => (xs.drop i).take n

/-- Where the needle stands first, from a position on. -/
def findSubslice (haystack : Bytes) (start : Nat) (needle : Bytes) : Option Nat :=
  if needle.isEmpty then some (min start haystack.length)
  else if haystack.length < start then none
  else
    let rest := haystack.drop start
    if rest.length < needle.length then none
    else ((windows needle.length rest).findIdx? (· == needle)).map (start + ·)

/-! ## Attributes -/

/-- What `getAttribute` came to: an attribute, the end of the tag, or the end of the bytes. -/
inductive Attr where
  | found (name value : Bytes)
  | none
  | eof
deriving DecidableEq, Repr

/-- A quoted value, up to its closing quote. -/
def readQuoted (quote : UInt8) (name value : Bytes) (pos : Nat) : Attr × Nat :=
  match _h : byte bytes pos with
  | none => (.eof, pos)
  | some b => if b == quote then (.found name value, pos + 1) else readQuoted quote name (value ++ [asciiLower b]) (pos + 1)
termination_by bytes.length - pos
decreasing_by
  have := Scan.lt_of_get ‹byte bytes pos = some b›
  omega

/-- A value without quotes, up to the byte that ends it. -/
def readUnquoted (name value : Bytes) (pos : Nat) : Attr × Nat :=
  match _h : byte bytes pos with
  | none => (.eof, pos)
  | some b =>
    if isAsciiWs b || b == '>'.toUInt8 then (.found name value, pos) else readUnquoted name (value ++ [asciiLower b]) (pos + 1)
termination_by bytes.length - pos
decreasing_by
  have := Scan.lt_of_get ‹byte bytes pos = some b›
  omega

/-- The value of an attribute, quoted or not. -/
def readAttributeValue (pos : Nat) (name : Bytes) : Attr × Nat :=
  let pos := skipWhile bytes isAsciiWs pos
  match byte bytes pos with
  | none => (.eof, pos)
  | some b =>
    if isQuote b then readQuoted bytes b name [] (pos + 1)
    else if b == '>'.toUInt8 then (.found name [], pos)
    else readUnquoted bytes name [] pos

/-- An attribute whose name is read: its value, if an `=` follows. -/
def afterNameWhitespace (pos : Nat) (name : Bytes) : Attr × Nat :=
  let pos := skipWhile bytes isAsciiWs pos
  match byte bytes pos with
  | none => (.eof, pos)
  | some b => if b == '='.toUInt8 then readAttributeValue bytes (pos + 1) name else (.found name [], pos)

/-- The name, byte by byte, and what comes after it. -/
def readName (name : Bytes) (pos : Nat) : Attr × Nat :=
  match _h : byte bytes pos with
  | none => (.eof, pos)
  | some b =>
    if b == '='.toUInt8 && !name.isEmpty then readAttributeValue bytes (pos + 1) name
    else if isAsciiWs b then afterNameWhitespace bytes pos name
    else if b == '/'.toUInt8 || b == '>'.toUInt8 then (.found name [], pos)
    else readName (name ++ [asciiLower b]) (pos + 1)
termination_by bytes.length - pos
decreasing_by
  have := Scan.lt_of_get ‹byte bytes pos = some b›
  omega

/-- The attribute at a position, and the position after it. -/
def getAttribute (pos : Nat) : Attr × Nat :=
  let pos := skipWhile bytes isWsOrSlash pos
  match byte bytes pos with
  | none => (.eof, pos)
  | some b => if b == '>'.toUInt8 then (.none, pos) else readName bytes [] pos

/-! ## Progress

A loop that gets attributes goes on only after one that took a byte, so the positions it gets them from increase. -/

variable {bytes}

/-- Skipping does not go back. -/
theorem le_skipWhile (pred : UInt8 → Bool) (pos : Nat) : pos ≤ skipWhile bytes pred pos := by
  fun_induction skipWhile bytes pred pos with
  | case1 pos b h hb ih => omega
  | case2 pos b h hb => exact Nat.le_refl _
  | case3 pos h => exact Nat.le_refl _

/-- A quoted value ends behind its start, inside the bytes. -/
theorem readQuoted_found {quote : UInt8} {name value name' value' : Bytes} {pos pos' : Nat}
    (h : readQuoted bytes quote name value pos = (.found name' value', pos')) : pos < pos' ∧ pos' ≤ bytes.length := by
  fun_induction readQuoted bytes quote name value pos with
  | case1 => cases h
  | case2 value pos b hb hq =>
    obtain ⟨-, rfl⟩ := Prod.mk.inj h
    exact ⟨Nat.lt_succ_self pos, Scan.lt_of_get hb⟩
  | case3 value pos b hb hq ih =>
    have := ih h
    omega

/-- An unquoted value ends no earlier than it starts, inside the bytes. -/
theorem readUnquoted_found {name value name' value' : Bytes} {pos pos' : Nat}
    (h : readUnquoted bytes name value pos = (.found name' value', pos')) : pos ≤ pos' ∧ pos' ≤ bytes.length := by
  fun_induction readUnquoted bytes name value pos with
  | case1 => cases h
  | case2 value pos b hb hstop =>
    obtain ⟨-, rfl⟩ := Prod.mk.inj h
    exact ⟨Nat.le_refl pos, Nat.le_of_lt (Scan.lt_of_get hb)⟩
  | case3 value pos b hb hstop ih =>
    have := ih h
    omega

/-- A value ends no earlier than it starts, inside the bytes. -/
theorem readAttributeValue_found {name name' value' : Bytes} {pos pos' : Nat}
    (h : readAttributeValue bytes pos name = (.found name' value', pos')) : pos ≤ pos' ∧ pos' ≤ bytes.length := by
  have hle : pos ≤ skipWhile bytes isAsciiWs pos := le_skipWhile isAsciiWs pos
  simp only [readAttributeValue] at h
  split at h
  · cases h
  · rename_i b hb
    split at h
    · have := readQuoted_found h
      omega
    · split at h
      · obtain ⟨-, rfl⟩ := Prod.mk.inj h
        exact ⟨hle, Nat.le_of_lt (Scan.lt_of_get hb)⟩
      · have := readUnquoted_found h
        omega

/-- What follows a name ends inside the bytes. -/
theorem afterNameWhitespace_found {name name' value' : Bytes} {pos pos' : Nat}
    (h : afterNameWhitespace bytes pos name = (.found name' value', pos')) : pos ≤ pos' ∧ pos' ≤ bytes.length := by
  have hle : pos ≤ skipWhile bytes isAsciiWs pos := le_skipWhile isAsciiWs pos
  simp only [afterNameWhitespace] at h
  split at h
  · cases h
  · rename_i b hb
    split at h
    · have := readAttributeValue_found h
      omega
    · obtain ⟨-, rfl⟩ := Prod.mk.inj h
      exact ⟨hle, Nat.le_of_lt (Scan.lt_of_get hb)⟩

/-- An attribute ends inside the bytes. -/
theorem readName_found {name name' value' : Bytes} {pos pos' : Nat}
    (h : readName bytes name pos = (.found name' value', pos')) : pos ≤ pos' ∧ pos' ≤ bytes.length := by
  fun_induction readName bytes name pos with
  | case1 => cases h
  | case2 name pos b hb heq =>
    have := readAttributeValue_found h
    omega
  | case3 name pos b hb heq hws => exact afterNameWhitespace_found h
  | case4 name pos b hb heq hws hend =>
    obtain ⟨-, rfl⟩ := Prod.mk.inj h
    exact ⟨Nat.le_refl pos, Nat.le_of_lt (Scan.lt_of_get hb)⟩
  | case5 name pos b hb heq hws hend ih =>
    have := ih h
    omega

/-- The byte after the spaces and slashes is no space and no slash. -/
theorem skipWhile_stop {pred : UInt8 → Bool} {pos : Nat} {b : UInt8}
    (h : byte bytes (skipWhile bytes pred pos) = some b) : pred b = false := by
  fun_induction skipWhile bytes pred pos with
  | case1 pos b' hb' hp ih => exact ih h
  | case2 pos b' hb' hp =>
    obtain rfl := Option.some.inj (hb'.symm.trans h)
    simpa using hp
  | case3 pos hn => cases hn.symm.trans h

/-- A loop that goes on with the next position at every byte of a kind skips such bytes. -/
theorem loop_skipWhile {σ ρ : Type*} {body : σ → σ ⊕ ρ} (state : Nat → σ) {pred : UInt8 → Bool}
    (hs : ∀ pos b, byte bytes pos = some b → pred b = true → body (state pos) = .inl (state (pos + 1))) (pos : Nat) :
    While.loop body (state pos) = While.loop body (state (skipWhile bytes pred pos)) := by
  fun_induction skipWhile bytes pred pos with
  | case1 pos b h hp ih => exact (While.loop_inl (hs pos b h hp)).trans ih
  | case2 pos b h hp => rfl
  | case3 pos h => rfl

/-- The first byte of a name does not end it. -/
theorem readName_first {pos : Nat} {b : UInt8} (hb : byte bytes pos = some b) (hslash : isWsOrSlash b = false)
    (hgt : ¬(b == '>'.toUInt8) = true) : readName bytes [] pos = readName bytes [asciiLower b] (pos + 1) := by
  obtain ⟨hws, hslash⟩ := Bool.or_eq_false_iff.1 hslash
  rw [readName]
  split
  · rename_i hn
    cases hb.symm.trans hn
  · rename_i b' hb'
    obtain rfl := Option.some.inj (hb.symm.trans hb')
    simp [hws, hslash, hgt]

/-- Getting an attribute takes a byte. -/
theorem getAttribute_found {name value : Bytes} {pos pos' : Nat} (h : getAttribute bytes pos = (.found name value, pos')) :
    pos < pos' ∧ pos' ≤ bytes.length := by
  have hle : pos ≤ skipWhile bytes isWsOrSlash pos := le_skipWhile isWsOrSlash pos
  simp only [getAttribute] at h
  split at h
  · cases h
  · rename_i b hb
    split at h
    · cases h
    · rename_i hgt
      rw [readName_first hb (skipWhile_stop hb) hgt] at h
      have := readName_found h
      omega

/-- Where a name begins there is an attribute. -/
theorem readName_ne_none (name : Bytes) (pos pos' : Nat) : readName bytes name pos ≠ (.none, pos') := by
  have quoted : ∀ quote name value pos, readQuoted bytes quote name value pos ≠ (.none, pos') := by
    intro quote name value pos
    fun_induction readQuoted bytes quote name value pos with
    | case1 => exact nofun
    | case2 => exact nofun
    | case3 _ _ _ _ _ ih => exact ih
  have unquoted : ∀ name value pos, readUnquoted bytes name value pos ≠ (.none, pos') := by
    intro name value pos
    fun_induction readUnquoted bytes name value pos with
    | case1 => exact nofun
    | case2 => exact nofun
    | case3 _ _ _ _ _ ih => exact ih
  have value : ∀ pos name, readAttributeValue bytes pos name ≠ (.none, pos') := by
    intro pos name
    simp only [readAttributeValue]
    split
    · exact nofun
    · split
      · exact quoted _ _ _ _
      · split
        · exact nofun
        · exact unquoted _ _ _
  fun_induction readName bytes name pos with
  | case1 => exact nofun
  | case2 => exact value _ _
  | case3 name pos =>
    simp only [afterNameWhitespace]
    split
    · exact nofun
    · split
      · exact value _ _
      · exact nofun
  | case4 => exact nofun
  | case5 _ _ _ _ _ _ _ ih => exact ih

/-- The end of a tag is at a `>`. -/
theorem getAttribute_none {pos pos' : Nat} (h : getAttribute bytes pos = (.none, pos')) :
    pos ≤ pos' ∧ byte bytes pos' = some '>'.toUInt8 := by
  have hle : pos ≤ skipWhile bytes isWsOrSlash pos := le_skipWhile isWsOrSlash pos
  simp only [getAttribute] at h
  split at h
  · cases h
  · rename_i b hb
    split at h
    · rename_i hgt
      obtain ⟨-, rfl⟩ := Prod.mk.inj h
      exact ⟨hle, hb.trans (congrArg some (beq_iff_eq.1 hgt))⟩
    · exact absurd h (readName_ne_none _ _ _)

/-! ## The encoding a meta tag names -/

/-- Part of a list, none where the list ends before. -/
def slice (xs : Bytes) (start stop : Nat) : Option Bytes :=
  if start ≤ stop ∧ stop ≤ xs.length then some ((xs.drop start).take (stop - start)) else none

/-- The word `content` is searched for. -/
def charsetWord : Bytes := ascii "charset"

/-- The word has seven letters. -/
theorem length_charsetWord : charsetWord.length = 7 := by decide

/-- What is found lies between the start and the end. -/
theorem findSubslice_eq_some {haystack needle : Bytes} {start found : Nat} (hne : needle ≠ [])
    (h : findSubslice haystack start needle = some found) :
    start ≤ found ∧ found + needle.length ≤ haystack.length := by
  unfold findSubslice at h
  split at h
  · rename_i hempty
    exact absurd (List.isEmpty_iff.1 hempty) hne
  · split at h
    · cases h
    · dsimp only at h
      split at h
      · cases h
      · rename_i hle hlen
        obtain ⟨i, hi, rfl⟩ := Option.map_eq_some_iff.1 h
        have hlt := (List.findIdx?_eq_some_iff_getElem.1 hi).1
        simp only [windows, List.length_map, List.length_range, List.length_drop] at hlt
        simp only [List.length_drop] at hlen
        omega

/-- One search for `charset` and an equals sign: where to search on, or the position after the equals sign. -/
def searchStep (content : Bytes) (searchFrom : Nat) : Nat ⊕ Option Nat :=
  match findSubslice content searchFrom charsetWord with
  | none => .inr none
  | some found =>
    let p := skipWhile content isAsciiWs (found + charsetWord.length)
    if byte content p == some '='.toUInt8 then .inr (some (p + 1)) else .inl p

/-- The search starts again after the spaces after a `charset`, where there is no equals sign. -/
theorem searchStep_inl {content : Bytes} {searchFrom p : Nat} (h : searchStep content searchFrom = .inl p) :
    ∃ found, findSubslice content searchFrom charsetWord = some found ∧
      p = skipWhile content isAsciiWs (found + charsetWord.length) ∧ ¬(byte content p == some '='.toUInt8) = true := by
  unfold searchStep at h
  split at h
  · cases h
  · rename_i found hfound
    dsimp only at h
    split at h
    · cases h
    · rename_i heq
      obtain rfl := Sum.inl.inj h
      exact ⟨found, hfound, rfl, heq⟩

/-- It ends where there is no `charset`, or after the equals sign. -/
theorem searchStep_inr {content : Bytes} {searchFrom : Nat} {r : Option Nat} (h : searchStep content searchFrom = .inr r) :
    (findSubslice content searchFrom charsetWord = none ∧ r = none) ∨
      ∃ found, findSubslice content searchFrom charsetWord = some found ∧
        r = some (skipWhile content isAsciiWs (found + charsetWord.length) + 1) ∧
        (byte content (skipWhile content isAsciiWs (found + charsetWord.length)) == some '='.toUInt8) = true := by
  unfold searchStep at h
  split at h
  · rename_i hfound
    exact .inl ⟨hfound, (Sum.inr.inj h).symm⟩
  · rename_i found hfound
    dsimp only at h
    split at h
    · rename_i heq
      exact .inr ⟨found, hfound, (Sum.inr.inj h).symm, heq⟩
    · cases h

/-- Each round of the search starts farther on. -/
theorem searchStep_lt (content : Bytes) (searchFrom p : Nat) (h : searchStep content searchFrom = .inl p) :
    content.length - p < content.length - searchFrom := by
  obtain ⟨found, hfound, rfl, -⟩ := searchStep_inl h
  obtain ⟨h1, h2⟩ := findSubslice_eq_some (by decide) hfound
  have h3 : found + charsetWord.length ≤ skipWhile content isAsciiWs (found + charsetWord.length) := le_skipWhile _ _
  rw [length_charsetWord] at h2 h3 ⊢
  omega

/-- Where the value behind `charset=` starts. -/
def valueStartAfterEq (content : Bytes) : Option Nat :=
  While.iterate (searchStep content) (content.length - ·) (searchStep_lt content) 0

variable (table : Encodings ε)

/-- The label that begins at a position or at the first byte after it that is no space: between quotes, or up to a space or
semicolon. -/
def contentLabel (content : Bytes) (start : Nat) : Option Bytes :=
  let p := skipWhile content isAsciiWs start
  match byte content p with
  | none => none
  | some b =>
    if isQuote b then (Scan.find (fun _ c => c == b) content (p + 1)).bind fun stop => slice content (p + 1) stop
    else slice content p ((Scan.find (fun _ c => isAsciiWs c || c == ';'.toUInt8) content p).getD content.length)

/-- The encoding that the `content` of a `meta` tag names. -/
def extractEncodingFromMetaContent (content : Bytes) : Option ε := do
  let start ← valueStartAfterEq content
  let label ← contentLabel content start
  table.forLabel label

/-- What stands for an encoding that no `meta` tag could be read in. -/
def normalizePrescannedEncoding [DecidableEq ε] (encoding : ε) : ε :=
  if encoding = table.utf16Be ∨ encoding = table.utf16Le then table.utf8
  else if encoding = table.xUserDefined then table.windows1252
  else encoding

/-- What scanning the attributes of one `meta` tag decided. -/
inductive TagOutcome (ε : Type) where
  | continueAt (pos : Nat)
  | found (encoding : ε)
  | eof
deriving DecidableEq, Repr

/-- The variables of the loop over the attributes of a `meta` tag. The charset is none before one was set, and none inside
for one that is not supported. -/
structure MetaAttributes (ε : Type) where
  pos : Nat
  seenNames : List Bytes := []
  gotPragma : Bool := false
  needPragma : Option Bool := none
  charset : Option (Option ε) := none

namespace MetaAttributes

/-- The variables after an attribute, whose name only counts the first time. -/
def note (s : MetaAttributes ε) (name value : Bytes) : MetaAttributes ε :=
  if s.seenNames.any (· == name) then s
  else
    let s := { s with seenNames := s.seenNames ++ [name] }
    if name == ascii "http-equiv" then
      if value == ascii "content-type" then { s with gotPragma := true } else s
    else if name == ascii "content" then
      if s.charset.isNone then
        match extractEncodingFromMetaContent table value with
        | some enc => { s with charset := some (some enc), needPragma := some true }
        | none => s
      else s
    else if name == ascii "charset" then { s with charset := some (table.forLabel value), needPragma := some false }
    else s

/-- Noting an attribute stays where it is. -/
theorem note_pos (s : MetaAttributes ε) (name value : Bytes) : (s.note table name value).pos = s.pos := by
  unfold note
  dsimp only
  repeat' split
  all_goals rfl

/-- The decision at the end of the tag. -/
def outcome [DecidableEq ε] (s : MetaAttributes ε) (pos : Nat) : TagOutcome ε :=
  match s.needPragma with
  | none => .continueAt pos
  | some needPragma =>
    if needPragma && !s.gotPragma then .continueAt pos
    else
      match s.charset with
      | some (some enc) => .found (normalizePrescannedEncoding table enc)
      | _ => .continueAt pos

end MetaAttributes

variable (bytes) [DecidableEq ε]

/-- The next attribute of a `meta` tag. -/
def metaStep (s : MetaAttributes ε) : MetaAttributes ε ⊕ TagOutcome ε :=
  match getAttribute bytes s.pos with
  | (.eof, _) => .inr .eof
  | (.none, pos) => .inr (s.outcome table pos)
  | (.found name value, pos) => .inl ({ s with pos }.note table name value)

/-- A round that goes on has found an attribute, and notes it. -/
theorem metaStep_inl {s s' : MetaAttributes ε} (h : metaStep bytes table s = .inl s') :
    ∃ name value pos, getAttribute bytes s.pos = (.found name value, pos) ∧ s' = { s with pos }.note table name value := by
  unfold metaStep at h
  split at h
  · cases h
  · cases h
  · rename_i name value pos hget
    exact ⟨name, value, pos, hget, (Sum.inl.inj h).symm⟩

/-- A round that ends has found the end of the tag, or of the bytes. -/
theorem metaStep_inr {s : MetaAttributes ε} {r : TagOutcome ε} (h : metaStep bytes table s = .inr r) :
    ∃ pos, (getAttribute bytes s.pos = (.eof, pos) ∧ r = .eof) ∨
      (getAttribute bytes s.pos = (.none, pos) ∧ r = s.outcome table pos) := by
  unfold metaStep at h
  split at h
  · rename_i pos hget
    exact ⟨pos, .inl ⟨hget, (Sum.inr.inj h).symm⟩⟩
  · rename_i pos hget
    exact ⟨pos, .inr ⟨hget, (Sum.inr.inj h).symm⟩⟩
  · cases h

/-- Each round of a `meta` tag is farther on. -/
theorem metaStep_lt (s s' : MetaAttributes ε) (h : metaStep bytes table s = .inl s') :
    bytes.length - s'.pos < bytes.length - s.pos := by
  obtain ⟨name, value, pos, hget, rfl⟩ := metaStep_inl bytes table h
  have := getAttribute_found hget
  rw [MetaAttributes.note_pos]
  show bytes.length - pos < _
  omega

/-- The attributes of a `meta` tag, and what they come to. -/
def scanMetaAttributes (pos : Nat) : TagOutcome ε :=
  While.iterate (metaStep bytes table) (fun s => bytes.length - s.pos) (metaStep_lt bytes table) { pos }

/-- The decision of a tag goes on at the end of the tag, if it goes on. -/
theorem MetaAttributes.outcome_continueAt {s : MetaAttributes ε} {pos pos' : Nat}
    (h : s.outcome table pos = .continueAt pos') : pos' = pos := by
  unfold outcome at h
  split at h
  · cases h
    rfl
  · split at h
    · cases h
      rfl
    · split at h
      · cases h
      · cases h
        rfl

/-- The end of a tag is not before its first attribute. -/
theorem le_of_scanMetaAttributes {pos pos' : Nat} (h : scanMetaAttributes bytes table pos = .continueAt pos') :
    pos ≤ pos' := by
  refine While.iterate_invariant (metaStep_lt bytes table) (I := fun s => pos ≤ s.pos)
    (Q := fun r => ∀ pos', r = .continueAt pos' → pos ≤ pos') ?_ ?_ (Nat.le_refl pos) pos' h
  · intro s s' hle hs
    obtain ⟨name, value, p, hget, rfl⟩ := metaStep_inl bytes table hs
    have := getAttribute_found hget
    rw [MetaAttributes.note_pos]
    show pos ≤ p
    omega
  · rintro s r hle hr pos' rfl
    obtain ⟨p, ⟨-, hout⟩ | ⟨hget, hout⟩⟩ := metaStep_inr bytes table hr
    · cases hout
    · obtain rfl := MetaAttributes.outcome_continueAt table hout.symm
      have := getAttribute_none hget
      omega

/-! ## The scan -/

/-- Where the name of any other tag starts. -/
def genericTagNameStart (pos : Nat) : Option Nat :=
  if byteAt bytes pos 0 != some '<'.toUInt8 then none
  else
    let p := if byteAt bytes (pos + 1) 0 == some '/'.toUInt8 then pos + 2 else pos + 1
    match byte bytes p with
    | some b => if isAsciiAlphabetic b then some p else none
    | none => none

/-- The next attribute of another tag. -/
def tagStep (p : Nat) : Nat ⊕ Option Nat :=
  match getAttribute bytes p with
  | (.eof, _) => .inr none
  | (.none, p) => .inr (some p)
  | (.found _ _, p) => .inl p

variable {bytes} in
/-- A round that goes on has found an attribute. -/
theorem tagStep_inl {p p' : Nat} (h : tagStep bytes p = .inl p') :
    ∃ name value, getAttribute bytes p = (.found name value, p') := by
  unfold tagStep at h
  split at h
  · cases h
  · cases h
  · rename_i name value pos hget
    obtain rfl := Sum.inl.inj h
    exact ⟨name, value, hget⟩

variable {bytes} in
/-- A round that ends has found the end of the tag, or of the bytes. -/
theorem tagStep_inr {p : Nat} {r : Option Nat} (h : tagStep bytes p = .inr r) :
    ∃ pos, (getAttribute bytes p = (.eof, pos) ∧ r = none) ∨ (getAttribute bytes p = (.none, pos) ∧ r = some pos) := by
  unfold tagStep at h
  split at h
  · rename_i pos hget
    exact ⟨pos, .inl ⟨hget, (Sum.inr.inj h).symm⟩⟩
  · rename_i pos hget
    exact ⟨pos, .inr ⟨hget, (Sum.inr.inj h).symm⟩⟩
  · cases h

/-- Each round of a tag is farther on. -/
theorem tagStep_lt (p p' : Nat) (h : tagStep bytes p = .inl p') : bytes.length - p' < bytes.length - p := by
  obtain ⟨name, value, hget⟩ := tagStep_inl h
  have := getAttribute_found hget
  omega

/-- The end of any other tag. -/
def skipGenericTag (pos : Nat) : Option Nat := do
  let nameStart ← genericTagNameStart bytes pos
  let p ← Scan.find (fun _ b => isAsciiWs b || b == '>'.toUInt8) bytes nameStart
  While.iterate (tagStep bytes) (bytes.length - ·) (tagStep_lt bytes) p

/-- The position after `<meta` in upper or lower case and a space or slash. -/
def matchMetaStart (pos : Nat) : Option Nat :=
  let isLetter (offset : Nat) (upper lower : Char) : Bool :=
    byteAt bytes pos offset == some upper.toUInt8 || byteAt bytes pos offset == some lower.toUInt8
  if byteAt bytes pos 0 == some '<'.toUInt8 && isLetter 1 'M' 'm' && isLetter 2 'E' 'e' && isLetter 3 'T' 't' &&
      isLetter 4 'A' 'a' then
    match byteAt bytes pos 5 with
    | some tagSpace => if isWsOrSlash tagSpace then some (pos + 6) else none
    | none => none
  else none

/-- The byte that many bytes before a position. -/
def byteBefore (pos offset : Nat) : Option UInt8 := if offset ≤ pos then byte bytes (pos - offset) else none

/-- The position of the `>` that ends a comment. -/
def skipComment (pos : Nat) : Option Nat :=
  Scan.find (fun p b => b == '>'.toUInt8 && byteBefore bytes p 1 == some '-'.toUInt8 && byteBefore bytes p 2 == some '-'.toUInt8)
    bytes (pos + 4)

/-- Whether a declaration or the like starts here. -/
def startsWithBangSlashOrQuestion (pos : Nat) : Bool :=
  byteAt bytes pos 0 == some '<'.toUInt8 &&
    (byteAt bytes pos 1 == some '!'.toUInt8 || byteAt bytes pos 1 == some '/'.toUInt8 ||
      byteAt bytes pos 1 == some '?'.toUInt8)

/-- The next `>`. -/
def skipToGt (pos : Nat) : Option Nat := Scan.find (fun _ b => b == '>'.toUInt8) bytes (pos + 2)

/-- The scan goes on after that position, or is aborted at the end of the bytes. -/
def goOn : Option Nat → Nat ⊕ Option ε
  | none => .inr none
  | some nextPos => .inl (nextPos + 1)

variable {bytes}

/-- The start of a `meta` tag is six bytes. -/
theorem matchMetaStart_eq {pos pos' : Nat} (h : matchMetaStart bytes pos = some pos') : pos' = pos + 6 := by
  unfold matchMetaStart at h
  dsimp only at h
  split at h
  · split at h
    · split at h
      · exact (Option.some.inj h).symm
      · cases h
    · cases h
  · cases h

/-- The name of a tag starts behind its `<`. -/
theorem genericTagNameStart_lt {pos p : Nat} (h : genericTagNameStart bytes pos = some p) : pos < p := by
  unfold genericTagNameStart at h
  split at h
  · cases h
  · dsimp only at h
    split at h
    · rename_i b hb
      split at h
      · obtain rfl := Option.some.inj h
        split <;> omega
      · cases h
    · cases h

/-- A tag ends behind its start. -/
theorem skipGenericTag_lt {pos p : Nat} (h : skipGenericTag bytes pos = some p) : pos < p := by
  unfold skipGenericTag at h
  obtain ⟨nameStart, hname, h⟩ := Option.bind_eq_some_iff.1 h
  obtain ⟨p', hfind, h⟩ := Option.bind_eq_some_iff.1 h
  have h1 := genericTagNameStart_lt hname
  have h2 := (Scan.find_eq_some_iff.1 hfind).1
  refine While.iterate_invariant (tagStep_lt bytes) (I := fun p => pos < p) (Q := fun r => ∀ p, r = some p → pos < p) ?_ ?_
    (show pos < p' by omega) p h
  · intro q q' hlt hs
    obtain ⟨name, value, hget⟩ := tagStep_inl hs
    have := getAttribute_found hget
    omega
  · rintro q r hlt hr p rfl
    obtain ⟨q', ⟨-, hr⟩ | ⟨hget, hr⟩⟩ := tagStep_inr hr
    · cases hr
    · obtain rfl := Option.some.inj hr
      have := getAttribute_none hget
      omega

variable (bytes)

/-- One iteration of the scan. -/
def prescanStep (pos : Nat) : Nat ⊕ Option ε :=
  if pos < bytes.length then
    if startsWithAt bytes pos (ascii "<!--") then goOn (skipComment bytes pos)
    else
      match matchMetaStart bytes pos with
      | some afterTagSpace =>
        match scanMetaAttributes bytes table afterTagSpace with
        | .found enc => .inr (some enc)
        | .continueAt p => goOn (some p)
        | .eof => .inr none
      | none =>
        if (genericTagNameStart bytes pos).isSome then goOn (skipGenericTag bytes pos)
        else if startsWithBangSlashOrQuestion bytes pos then goOn (skipToGt bytes pos)
        else goOn (some pos)
  else .inr none

/-- Each round of the prescan is farther on. -/
theorem prescanStep_lt (pos pos' : Nat) (h : prescanStep bytes table pos = .inl pos') :
    bytes.length - pos' < bytes.length - pos := by
  have later : ∀ {next : Option Nat}, (∀ p, next = some p → pos ≤ p) → goOn (ε := ε) next = .inl pos' → pos < pos' := by
    rintro (_ | p) hle h
    · cases h
    · obtain rfl := Sum.inl.inj h
      exact Nat.lt_succ_of_le (hle p rfl)
  unfold prescanStep at h
  split at h
  · have hlt : pos < pos' := by
      split at h
      · refine later (fun p hp => ?_) h
        have := (Scan.find_eq_some_iff.1 hp).1
        omega
      · split at h
        · rename_i after hafter
          split at h
          · cases h
          · rename_i p hp
            refine later (fun p' hp' => ?_) h
            obtain rfl := Option.some.inj hp'
            have := le_of_scanMetaAttributes bytes table hp
            have := matchMetaStart_eq hafter
            omega
          · cases h
        · split at h
          · exact later (fun p hp => Nat.le_of_lt (skipGenericTag_lt hp)) h
          · split at h
            · refine later (fun p hp => ?_) h
              have := (Scan.find_eq_some_iff.1 hp).1
              omega
            · exact later (fun p hp => Nat.le_of_eq (Option.some.inj hp)) h
    omega
  · cases h

/-- The encoding that a `meta` tag in the first bytes names. -/
def prescanMetaCharset : Option ε :=
  let window := bytes.take (min bytes.length prescanLimitBytes)
  While.iterate (prescanStep window table) (window.length - ·) (prescanStep_lt window table) 0

end Prescan

end ChromeLight
