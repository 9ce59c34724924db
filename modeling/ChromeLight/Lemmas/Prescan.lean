import ChromeLight.Whatwg

/-!
# The prescan and the standard

Each function of the prescan against the steps of the standard it is for: running the standard's algorithm from the label
where the function begins is running it on from where the function ends (`resume` for those that get an attribute), and has
no result where the function meets the end of the bytes.
-/

namespace ChromeLight

namespace Whatwg

open Prescan

variable {ε : Type} {table : Encodings ε} {bytes : Bytes} {b : UInt8} {pos : Nat}

/-! ## Bytes -/

/-- The bytes of the literals. -/
@[simp] theorem toUInt8_literals : '<'.toUInt8 = 0x3C ∧ '>'.toUInt8 = 0x3E ∧ '/'.toUInt8 = 0x2F ∧ '='.toUInt8 = 0x3D ∧
    '!'.toUInt8 = 0x21 ∧ '?'.toUInt8 = 0x3F ∧ '-'.toUInt8 = 0x2D ∧ ';'.toUInt8 = 0x3B ∧ 'M'.toUInt8 = 0x4D ∧ 'm'.toUInt8 = 0x6D ∧
    'E'.toUInt8 = 0x45 ∧ 'e'.toUInt8 = 0x65 ∧ 'T'.toUInt8 = 0x54 ∧ 't'.toUInt8 = 0x74 ∧ 'A'.toUInt8 = 0x41 ∧
    'a'.toUInt8 = 0x61 := by decide

/-- White space is the standard's. -/
@[simp] theorem isAsciiWs_eq (b : UInt8) : isAsciiWs b = decide (b ∈ spaces) := by
  simp only [isAsciiWs, spaces, List.mem_cons, List.not_mem_nil, or_false, Bool.decide_or, Bool.or_assoc, beq_eq_decide]

/-- What stands between attributes is the standard's. -/
@[simp] theorem isWsOrSlash_eq (b : UInt8) : isWsOrSlash b = decide (b ∈ spaces ++ [0x2F]) := by
  simp [isWsOrSlash, beq_eq_decide]

/-- Lower case is the standard's. -/
@[simp] theorem asciiLower_eq (b : UInt8) : asciiLower b = lower b := by
  simp only [asciiLower, lower, isAsciiUppercase, Bool.and_eq_true, decide_eq_true_eq]

/-- Quotes are the standard's. -/
@[simp] theorem isQuote_eq (b : UInt8) : isQuote b = decide (b = 0x22 ∨ b = 0x27) := by
  simp only [isQuote, Bool.decide_or, beq_eq_decide]
  rfl

/-- A lower case byte is no upper case byte. -/
theorem lower_lower (b : UInt8) : lower (lower b) = lower b := by
  unfold lower
  by_cases h : 0x41 ≤ b ∧ b ≤ 0x5A
  · rw [if_pos h, if_neg]
    obtain ⟨h1, h2⟩ := h
    rw [UInt8.le_iff_toNat_le] at h1 h2
    rw [UInt8.le_iff_toNat_le, UInt8.le_iff_toNat_le, UInt8.toNat_add]
    simp only [UInt8.reduceToNat] at h1 h2 ⊢
    omega
  · rw [if_neg h, if_neg h]

/-! ## Running the algorithm -/

variable [DecidableEq ε]

/-- The result of the algorithm from a label and a position on. -/
def runs (table : Encodings ε) (bytes : Bytes) (label : Label ε) (pos : Nat) : Part (Option ε) :=
  While.loop (step table bytes) ⟨label, pos⟩

/-- At the end of the bytes nothing is found. -/
theorem runs_eof (table : Encodings ε) (h : bytes[pos]? = none) (label : Label ε) : runs table bytes label pos = .some none :=
  While.loop_inr (by rw [step, h])

/-- At a byte the algorithm does one step. -/
theorem runs_next (h : bytes[pos]? = some b) {label label' : Label ε} {pos' : Nat}
    (hs : stepAt table bytes pos b label = .inl ⟨label', pos'⟩) : runs table bytes label pos = runs table bytes label' pos' :=
  While.loop_inl (by rw [step, h]; exact hs)

/-- The algorithm from what getting an attribute came to. -/
def resume (table : Encodings ε) (bytes : Bytes) (tag : Option (Meta ε)) : Prescan.Attr × Nat → Part (Option ε)
  | (.eof, _) => .some none
  | (.none, pos) => runs table bytes (.noAttribute tag) pos
  | (.found name value, pos) => runs table bytes (.sniffed tag name value) pos

/-! ## Getting an attribute -/

/-- Where the steps are the same at every byte of a kind, the positions of such bytes are skipped. -/
theorem runs_skipWhile (label : Label ε) (pred : UInt8 → Bool)
    (hs : ∀ pos b, pred b = true → stepAt table bytes pos b label = .inl ⟨label, pos + 1⟩) (pos : Nat) :
    runs table bytes label pos = runs table bytes label (skipWhile bytes pred pos) := by
  refine loop_skipWhile (State.mk label) ?_ pos
  intro pos b h hp
  rw [step, show bytes[pos]? = some b from h]
  exact hs pos b hp

/-- A quoted value, label by label. -/
theorem runs_quoted (tag : Option (Meta ε)) (name : Bytes) (quote : UInt8) (value : Bytes) (pos : Nat) :
    runs table bytes (.quoted tag name quote value) pos = resume table bytes tag (readQuoted bytes quote name value pos) := by
  fun_induction readQuoted bytes quote name value pos with
  | case1 value pos h => exact runs_eof table h _
  | case2 value pos b h hq => exact runs_next h (by rw [stepAt, if_pos (beq_iff_eq.1 hq)])
  | case3 value pos b h hq ih =>
    have happend : stepAt table bytes pos b (.quoted tag name quote value) =
        .inl ⟨.quoteLoop tag name quote (value ++ [lower b]), pos⟩ := by
      rw [stepAt, if_neg fun heq => hq (beq_iff_eq.2 heq)]
    have hnext : stepAt table bytes pos b (.quoteLoop tag name quote (value ++ [lower b])) =
        .inl ⟨.quoted tag name quote (value ++ [lower b]), pos + 1⟩ := rfl
    rw [runs_next h happend, runs_next h hnext, ← ih, asciiLower_eq]

/-- An unquoted value, label by label. -/
theorem runs_unquoted (tag : Option (Meta ε)) (name value : Bytes) (pos : Nat) :
    runs table bytes (.unquoted tag name value) pos = resume table bytes tag (readUnquoted bytes name value pos) := by
  fun_induction readUnquoted bytes name value pos with
  | case1 value pos h => exact runs_eof table h _
  | case2 value pos b h hstop =>
    refine runs_next h ?_
    rw [stepAt, if_pos (by simpa using hstop)]
  | case3 value pos b h hstop ih =>
    rw [← ih, asciiLower_eq]
    refine runs_next h ?_
    rw [stepAt, if_neg (by simpa using hstop)]

/-- A value, label by label. -/
theorem runs_value (tag : Option (Meta ε)) (name : Bytes) (pos : Nat) :
    runs table bytes (.value tag name) pos = resume table bytes tag (readAttributeValue bytes pos name) := by
  rw [runs_skipWhile (.value tag name) isAsciiWs (fun pos b hb => by rw [stepAt, if_pos (by simpa using hb)]) pos]
  simp only [readAttributeValue]
  split
  · rename_i h
    exact runs_eof table h _
  · rename_i b h
    have hws : b ∉ spaces := by simpa using skipWhile_stop h
    split
    · rename_i hq
      rw [← runs_quoted]
      have hquote : ∀ pos, stepAt table bytes pos b (.value tag name) = .inl ⟨.quoteLoop tag name b [], pos⟩ := fun pos => by
        rw [stepAt, if_neg hws, if_pos (by simpa using hq)]
      exact (runs_next h (hquote _)).trans (runs_next h rfl)
    · rename_i hq
      split
      · rename_i hgt
        refine runs_next h ?_
        rw [stepAt, if_neg hws, if_neg (by simpa using hq), if_pos (by simpa using hgt)]
      · rename_i hgt
        have hgt' : b ≠ 0x3E := by simpa using hgt
        -- the first byte is no end of the value
        have hstop : ¬(b ∈ spaces ∨ b = 0x3E) := fun hor => hor.elim hws hgt'
        rw [← runs_unquoted]
        trans runs table bytes (.unquoted tag name [lower b]) (skipWhile bytes isAsciiWs pos + 1)
        · refine runs_next h ?_
          rw [stepAt, if_neg hws, if_neg (by simpa using hq), if_neg hgt']
        · refine (runs_next h ?_).symm
          rw [stepAt, if_neg hstop, List.nil_append]

/-- The spaces after a name, label by label. -/
theorem runs_spaces (tag : Option (Meta ε)) (name : Bytes) (pos : Nat) :
    runs table bytes (.spaces tag name) pos = resume table bytes tag (afterNameWhitespace bytes pos name) := by
  rw [runs_skipWhile (.spaces tag name) isAsciiWs (fun pos b hb => by rw [stepAt, if_pos (by simpa using hb)]) pos]
  simp only [afterNameWhitespace]
  split
  · rename_i h
    exact runs_eof table h _
  · rename_i b h
    have hws : b ∉ spaces := by simpa using skipWhile_stop h
    split
    · rename_i heq
      rw [← runs_value]
      refine runs_next h ?_
      rw [stepAt, if_neg hws, if_neg (by simpa using heq)]
    · rename_i heq
      refine runs_next h ?_
      rw [stepAt, if_neg hws, if_pos (by simpa using heq)]

/-- A name, label by label. -/
theorem runs_name (tag : Option (Meta ε)) (name : Bytes) (pos : Nat) :
    runs table bytes (.name tag name) pos = resume table bytes tag (readName bytes name pos) := by
  fun_induction readName bytes name pos with
  | case1 name pos h => exact runs_eof table h _
  | case2 name pos b h heq =>
    rw [← runs_value]
    refine runs_next h ?_
    rw [stepAt, if_pos (by simpa using heq)]
  | case3 name pos b h heq hws =>
    rw [← runs_spaces]
    refine runs_next h ?_
    rw [stepAt, if_neg (by simpa using heq), if_pos (by simpa using hws)]
  | case4 name pos b h heq hws hend =>
    refine runs_next h ?_
    rw [stepAt, if_neg (by simpa using heq), if_neg (by simpa using hws), if_pos (by simpa using hend)]
  | case5 name pos b h heq hws hend ih =>
    rw [← ih, asciiLower_eq]
    refine runs_next h ?_
    rw [stepAt, if_neg (by simpa using heq), if_neg (by simpa using hws), if_neg (by simpa using hend)]

/-- Getting an attribute. -/
theorem runs_getAttribute (tag : Option (Meta ε)) (pos : Nat) :
    runs table bytes (.getAttribute tag) pos = resume table bytes tag (getAttribute bytes pos) := by
  rw [runs_skipWhile (.getAttribute tag) isWsOrSlash (fun pos b hb => by rw [stepAt, if_pos (by simpa using hb)]) pos]
  simp only [getAttribute]
  split
  · rename_i h
    exact runs_eof table h _
  · rename_i b h
    have hws : b ∉ spaces ++ [0x2F] := by simpa using skipWhile_stop h
    split
    · rename_i hgt
      refine runs_next h ?_
      rw [stepAt, if_neg hws, if_pos (by simpa using hgt)]
    · rename_i hgt
      rw [← runs_name]
      refine runs_next h ?_
      rw [stepAt, if_neg hws, if_neg (by simpa using hgt)]

/-! ## Lower case values -/

omit [DecidableEq ε] in
/-- A text in lower case stays so with one more byte. -/
theorem map_lower_concat {value : Bytes} (h : value.map lower = value) (b : UInt8) :
    (value ++ [lower b]).map lower = value ++ [lower b] := by
  rw [List.map_append, h, List.map_singleton, lower_lower]

/-- The values of attributes are in lower case. -/
theorem getAttribute_lower {name value : Bytes} {pos' : Nat} (h : getAttribute bytes pos = (.found name value, pos')) :
    value.map lower = value := by
  have quoted : ∀ quote name₀ value₀ pos, value₀.map lower = value₀ →
      readQuoted bytes quote name₀ value₀ pos = (.found name value, pos') → value.map lower = value := by
    intro quote name₀ value₀ pos hl h
    fun_induction readQuoted bytes quote name₀ value₀ pos with
    | case1 => cases h
    | case2 => cases h; exact hl
    | case3 value₀ pos b hb hq ih =>
      rw [asciiLower_eq] at h ih
      exact ih (map_lower_concat hl b) h
  have unquoted : ∀ name₀ value₀ pos, value₀.map lower = value₀ →
      readUnquoted bytes name₀ value₀ pos = (.found name value, pos') → value.map lower = value := by
    intro name₀ value₀ pos hl h
    fun_induction readUnquoted bytes name₀ value₀ pos with
    | case1 => cases h
    | case2 => cases h; exact hl
    | case3 value₀ pos b hb hstop ih =>
      rw [asciiLower_eq] at h ih
      exact ih (map_lower_concat hl b) h
  have value_lower : ∀ pos name₀, readAttributeValue bytes pos name₀ = (.found name value, pos') → value.map lower = value := by
    intro pos name₀ h
    simp only [readAttributeValue] at h
    split at h
    · cases h
    · split at h
      · exact quoted _ _ [] _ rfl h
      · split at h
        · cases h
          rfl
        · exact unquoted _ [] _ rfl h
  have name_lower : ∀ name₀ pos, readName bytes name₀ pos = (.found name value, pos') → value.map lower = value := by
    intro name₀ pos h
    fun_induction readName bytes name₀ pos with
    | case1 => cases h
    | case2 => exact value_lower _ _ h
    | case3 name₀ pos =>
      simp only [afterNameWhitespace] at h
      split at h
      · cases h
      · split at h
        · exact value_lower _ _ h
        · cases h
          rfl
    | case4 =>
      cases h
      rfl
    | case5 name₀ pos b hb heq hws hend ih => exact ih h
  simp only [getAttribute] at h
  split at h
  · cases h
  · split at h
    · cases h
    · exact name_lower _ _ h

/-! ## The first position -/

/-- The first position with a property. -/
theorem first_eq_some_iff {n start q : Nat} {P : Nat → Bool} :
    first n start P = some q ↔ start ≤ q ∧ q < n ∧ P q = true ∧ ∀ i, start ≤ i → i < q → P i = false := by
  rw [first, List.find?_range_eq_some]
  simp only [Bool.and_eq_true, decide_eq_true_eq, List.mem_range, Bool.not_eq_true', Bool.and_eq_false_imp]
  constructor
  · rintro ⟨⟨h1, h2⟩, h3, h4⟩
    exact ⟨h1, h3, h2, fun i hi hlt => h4 i hlt hi⟩
  · rintro ⟨h1, h2, h3, h4⟩
    exact ⟨⟨h1, h3⟩, h2, fun i hlt hi => h4 i hi hlt⟩

/-- A loop over the bytes finds the first position. -/
theorem find_eq_first {stop : Nat → UInt8 → Bool} {P : Nat → Bool} {start : Nat}
    (h : ∀ q b, start ≤ q → bytes[q]? = some b → P q = stop q b) :
    Scan.find stop bytes start = first bytes.length start P := by
  apply Option.ext
  intro q
  rw [first_eq_some_iff, Scan.find_eq_some_iff]
  constructor
  · rintro ⟨h1, ⟨b, hb, hs⟩, h2⟩
    refine ⟨h1, Scan.lt_of_get hb, (h q b h1 hb).trans hs, ?_⟩
    intro i hi hlt
    have hlt' : i < bytes.length := Nat.lt_trans hlt (Scan.lt_of_get hb)
    rw [h i _ hi (List.getElem?_eq_getElem hlt')]
    exact h2 i hi hlt _ (List.getElem?_eq_getElem hlt')
  · rintro ⟨h1, hlt, hP, h2⟩
    refine ⟨h1, ⟨_, List.getElem?_eq_getElem hlt, ?_⟩, fun i hi hlt b hb => ?_⟩
    · rw [← h q _ h1 (List.getElem?_eq_getElem hlt)]
      exact hP
    · rw [← h i b hi hb]
      exact h2 i hi hlt

/-- Positions without the property can be left out. -/
theorem first_skip {n start start' : Nat} {P : Nat → Bool} (hle : start ≤ start')
    (h : ∀ i, start ≤ i → i < start' → P i = false) : first n start P = first n start' P := by
  apply Option.ext
  intro q
  rw [first_eq_some_iff, first_eq_some_iff]
  constructor
  · rintro ⟨h1, hlt, hP, h2⟩
    refine ⟨?_, hlt, hP, fun i hi => h2 i (by omega)⟩
    by_contra hq
    rw [h q h1 (by omega)] at hP
    cases hP
  · rintro ⟨h1, hlt, hP, h2⟩
    refine ⟨by omega, hlt, hP, ?_⟩
    intro i hi hiq
    rcases Nat.lt_or_ge i start' with hlt' | hge
    · exact h i hi hlt'
    · exact h2 i hge hiq

/-- Finding a string is finding the first position where it stands. -/
theorem findSubslice_eq_first {needle : Bytes} (hne : needle ≠ []) (haystack : Bytes) (start : Nat) :
    findSubslice haystack start needle
      = first haystack.length start fun q => (haystack.drop q).take needle.length = needle := by
  have hpos : 0 < needle.length := List.length_pos_iff.2 hne
  have fits : ∀ q, (haystack.drop q).take needle.length = needle → q + needle.length ≤ haystack.length := by
    intro q h
    have := congrArg List.length h
    simp only [List.length_take, List.length_drop] at this
    omega
  apply Option.ext
  intro q
  rw [first_eq_some_iff]
  simp only [decide_eq_true_eq, decide_eq_false_iff_not]
  have hempty : needle.isEmpty = false := by
    rw [List.isEmpty_eq_false_iff]
    exact hne
  unfold findSubslice
  rw [hempty, if_neg Bool.false_ne_true]
  by_cases hstart : haystack.length < start
  · rw [if_pos hstart]
    refine ⟨nofun, ?_⟩
    rintro ⟨h1, h2, -⟩
    omega
  rw [if_neg hstart]
  dsimp only
  rw [List.length_drop]
  by_cases hshort : haystack.length - start < needle.length
  · rw [if_pos hshort]
    refine ⟨nofun, ?_⟩
    rintro ⟨h1, -, h2, -⟩
    have := fits q h2
    omega
  rw [if_neg hshort, Option.map_eq_some_iff]
  have hlen : (windows needle.length (haystack.drop start)).length = haystack.length - start + 1 - needle.length := by
    simp only [windows, List.length_map, List.length_range, List.length_drop]
  have hget : ∀ i (hi : i < (windows needle.length (haystack.drop start)).length),
      (windows needle.length (haystack.drop start))[i] = (haystack.drop (start + i)).take needle.length := by
    intro i hi
    simp only [windows, List.getElem_map, List.getElem_range, List.drop_drop]
  constructor
  · rintro ⟨i, hi, rfl⟩
    obtain ⟨hlt, hmatch, hbefore⟩ := List.findIdx?_eq_some_iff_getElem.1 hi
    rw [hget, beq_iff_eq] at hmatch
    have := fits _ hmatch
    refine ⟨by omega, by omega, hmatch, ?_⟩
    intro j hj hji heq
    obtain ⟨k, rfl⟩ := Nat.exists_eq_add_of_le hj
    refine hbefore k (by omega) ?_
    rw [hget, beq_iff_eq]
    exact heq
  · rintro ⟨hle, hlt, hmatch, hbefore⟩
    obtain ⟨i, rfl⟩ := Nat.exists_eq_add_of_le hle
    have := fits _ hmatch
    refine ⟨i, List.findIdx?_eq_some_iff_getElem.2 ⟨by omega, ?_, fun j hj heq => ?_⟩, rfl⟩
    · rw [hget, beq_iff_eq]
      exact hmatch
    · rw [hget, beq_iff_eq] at heq
      exact hbefore (start + j) (by omega) (by omega) heq

/-! ## Extracting an encoding -/

/-- Skipping white space is the standard's. -/
theorem skipWhile_eq_skipSpaces (string : Bytes) (pos : Nat) : skipWhile string isAsciiWs pos = skipSpaces string pos := by
  fun_induction skipWhile string isAsciiWs pos with
  | case1 pos b h hb ih =>
    obtain ⟨hlt, rfl⟩ := List.getElem?_eq_some_iff.1 h
    rw [ih, skipSpaces, skipSpaces, List.drop_eq_getElem_cons hlt, List.takeWhile_cons_of_pos (by simpa using hb),
      List.length_cons]
    omega
  | case2 pos b h hb =>
    obtain ⟨hlt, rfl⟩ := List.getElem?_eq_some_iff.1 h
    rw [skipSpaces, List.drop_eq_getElem_cons hlt, List.takeWhile_cons_of_neg (by simpa using hb)]
    rfl
  | case3 pos h =>
    rw [skipSpaces, List.drop_eq_nil_of_le (List.getElem?_eq_none_iff.1 h)]
    rfl

/-- A slice inside the bytes. -/
theorem slice_eq {xs : Bytes} {start stop : Nat} (h1 : start ≤ stop) (h2 : stop ≤ xs.length) :
    slice xs start stop = some ((xs.drop start).take (stop - start)) := if_pos ⟨h1, h2⟩

/-- The label is the standard's. -/
theorem contentLabel_eq (content : Bytes) (start : Nat) :
    contentLabel content start = labelAt content (skipSpaces content start) := by
  simp only [contentLabel, labelAt, skipWhile_eq_skipSpaces, byte]
  cases hb : content[skipSpaces content start]? with
  | none => rfl
  | some b =>
    simp only
    by_cases hq : b = 0x22 ∨ b = 0x27
    · rw [if_pos hq, if_pos (by simpa using hq), find_eq_first (P := fun q => content[q]? = some b) fun q c _ hc => by
        simp [hc, beq_eq_decide]]
      cases hf : first content.length (skipSpaces content start + 1) fun q => content[q]? = some b with
      | none => rfl
      | some q =>
        obtain ⟨h1, h2, -⟩ := first_eq_some_iff.1 hf
        exact slice_eq h1 (Nat.le_of_lt h2)
    · have hlt := Scan.lt_of_get hb
      rw [if_neg hq, if_neg (by simpa using hq)]
      have htake := Scan.takeWhile_eq_take_find (fun c => isAsciiWs c || c == ';'.toUInt8) content (skipSpaces content start)
      rw [slice_eq, ← htake]
      · congr 2
        funext c
        simp [beq_eq_decide]
      · cases hf : Scan.find (fun _ c => isAsciiWs c || c == ';'.toUInt8) content (skipSpaces content start) with
        | none => exact Nat.le_of_lt hlt
        | some q => exact (Scan.find_eq_some_iff.1 hf).1
      · cases hf : Scan.find (fun _ c => isAsciiWs c || c == ';'.toUInt8) content (skipSpaces content start) with
        | none => exact Nat.le_refl _
        | some q =>
          obtain ⟨-, ⟨c, hc, -⟩, -⟩ := Scan.find_eq_some_iff.1 hf
          exact Nat.le_of_lt (Scan.lt_of_get hc)

/-- In a string in lower case, the word `charset` is searched for as it is. -/
theorem findSubslice_charsetWord {string : Bytes} (hl : string.map lower = string) (start : Nat) :
    findSubslice string start charsetWord
      = first string.length start fun q => ((string.drop q).take 7).map lower = ascii "charset" := by
  rw [findSubslice_eq_first (by decide), length_charsetWord]
  congr 1
  funext q
  rw [List.map_take, List.map_drop, hl]
  rfl

/-- The loop of the extraction searches for the word and an equals sign. -/
theorem stepAt_extract {string : Bytes} (hl : string.map lower = string) (m : Meta ε) (start : Nat) :
    stepAt table bytes pos b (.extract m string start) =
      match searchStep string start with
      | .inl next => .inl ⟨.extract m string next, pos⟩
      | .inr none => .inl ⟨.getAttribute (some m), pos⟩
      | .inr (some value) =>
        .inl ⟨.getAttribute (some (m.content ((contentLabel string value).bind table.forLabel))), pos⟩ := by
  simp only [stepAt, ← findSubslice_charsetWord hl, searchStep, length_charsetWord, skipWhile_eq_skipSpaces, byte]
  cases findSubslice string start charsetWord with
  | none => rfl
  | some q =>
    simp only
    by_cases heq : string[skipSpaces string (q + 7)]? = some 0x3D
    · rw [if_pos heq, if_pos (by simpa using heq), ← contentLabel_eq]
    · rw [if_neg heq, if_neg (by simpa using heq)]

/-- The extraction sets the charset of a tag to what is extracted, if the tag has none. -/
theorem runs_extract (hb : bytes[pos]? = some b) {string : Bytes} (hl : string.map lower = string) (m : Meta ε) :
    runs table bytes (.extract m string 0) pos
      = runs table bytes (.getAttribute (some (m.content (extractEncodingFromMetaContent table string)))) pos := by
  have key : ∀ start, runs table bytes (.extract m string start) pos
      = runs table bytes (.getAttribute (some (m.content
          ((While.iterate (searchStep string) (string.length - ·) (searchStep_lt string) start).bind fun start =>
            (contentLabel string start).bind table.forLabel)))) pos := by
    intro start
    fun_induction While.iterate (searchStep string) (string.length - ·) (searchStep_lt string) start with
    | case1 start next hs ih =>
      rw [← ih]
      refine runs_next hb ?_
      rw [stepAt_extract hl, hs]
    | case2 start r hs =>
      refine runs_next hb ?_
      rw [stepAt_extract hl, hs]
      cases r <;> rfl
  exact key 0

/-! ## The attributes of a meta tag -/

/-- What the standard calls a charset that was not set, that is not supported, and that is. -/
def Charset.of : Option (Option ε) → Charset ε
  | none => .null
  | some none => .failure
  | some (some e) => .encoding e

/-- The variables of the standard. -/
def Meta.of (s : MetaAttributes ε) : Meta ε := ⟨s.seenNames, s.gotPragma, s.needPragma, .of s.charset⟩

omit [DecidableEq ε] in
/-- The variables of a tag with one more name. -/
theorem Meta.of_note (s : MetaAttributes ε) {name : Bytes} (hnew : name ∉ s.seenNames) (value : Bytes) :
    Meta.of (s.note table name value) =
      let m := { Meta.of s with attributeList := s.seenNames ++ [name] }
      if name = ascii "content" then m.content (extractEncodingFromMetaContent table value)
      else m.note table name value := by
  have hany : ¬(s.seenNames.any (· == name)) = true := by simpa using hnew
  unfold MetaAttributes.note
  rw [if_neg hany]
  simp only [beq_iff_eq, Meta.note]
  by_cases hequiv : name = ascii "http-equiv"
  · have hcontent : name ≠ ascii "content" := by
      rw [hequiv]
      decide
    rw [if_pos hequiv, if_neg hcontent, if_pos hequiv]
    by_cases hvalue : value = ascii "content-type"
    · rw [if_pos hvalue, if_pos hvalue]
      rfl
    · rw [if_neg hvalue, if_neg hvalue]
      rfl
  · rw [if_neg hequiv, if_neg hequiv]
    by_cases hcontent : name = ascii "content"
    · rw [if_pos hcontent, if_pos hcontent]
      cases hc : s.charset with
      | none =>
        cases extractEncodingFromMetaContent table value with
        | none => simp only [Option.isNone_none, if_true, Meta.of, Meta.content, hc]
        | some e => simp only [Option.isNone_none, if_true, Meta.of, Meta.content, hc, Charset.of]
      | some encoding =>
        cases extractEncodingFromMetaContent table value <;> cases encoding <;>
          simp only [Option.isNone_some, Bool.false_eq_true, if_false, Meta.of, Meta.content, hc, Charset.of]
    · rw [if_neg hcontent, if_neg hcontent]
      by_cases hcharset : name = ascii "charset"
      · rw [if_pos hcharset, if_pos hcharset]
        simp only [Meta.of, Charset.ofLabel]
        cases table.forLabel value <;> rfl
      · rw [if_neg hcharset, if_neg hcharset]
        rfl

/-- An attribute of a `meta` tag. -/
theorem runs_sniffed (hb : bytes[pos]? = some b) (s : MetaAttributes ε) (name : Bytes) {value : Bytes}
    (hl : value.map lower = value) :
    runs table bytes (.sniffed (some (.of s)) name value) pos
      = runs table bytes (.getAttribute (some (.of (s.note table name value)))) pos := by
  by_cases hseen : name ∈ s.seenNames
  · have hnote : s.note table name value = s := if_pos (by simpa using hseen)
    rw [hnote]
    refine runs_next hb ?_
    rw [stepAt, if_pos (show name ∈ (Meta.of s).attributeList from hseen)]
  · have hnew : name ∉ (Meta.of s).attributeList := hseen
    rw [Meta.of_note s hseen]
    by_cases hcontent : name = ascii "content"
    · simp only [if_pos hcontent]
      rw [← runs_extract hb hl]
      refine runs_next hb ?_
      rw [stepAt, if_neg hnew, if_pos hcontent]
      rfl
    · simp only [if_neg hcontent]
      refine runs_next hb ?_
      rw [stepAt, if_neg hnew, if_neg hcontent]
      rfl

/-- The algorithm from what a `meta` tag decided. -/
def resumeTag (table : Encodings ε) (bytes : Bytes) : TagOutcome ε → Part (Option ε)
  | .eof => .some none
  | .found e => .some (some e)
  | .continueAt pos => runs table bytes .nextByte pos

/-- The end of a `meta` tag is processed to its outcome. -/
theorem runs_processing (hb : bytes[pos]? = some b) (s : MetaAttributes ε) :
    runs table bytes (.processing (.of s)) pos = resumeTag table bytes (s.outcome table pos) := by
  have goes : ∀ {label}, stepAt table bytes pos b (.processing (.of s)) = .inl ⟨label, pos⟩ →
      runs table bytes (.processing (.of s)) pos = runs table bytes label pos := runs_next hb
  unfold MetaAttributes.outcome
  cases hn : s.needPragma with
  | none => exact goes (by rw [stepAt, if_pos (show (Meta.of s).needPragma = none from hn)])
  | some needPragma =>
    have hnone : ¬(Meta.of s).needPragma = none := by simp [Meta.of, hn]
    simp only
    by_cases hpragma : needPragma = true ∧ s.gotPragma = false
    · rw [if_pos (by simpa using hpragma)]
      refine goes ?_
      rw [stepAt, if_neg hnone, if_pos ⟨hn.trans (congrArg some hpragma.1), hpragma.2⟩]
    · rw [if_neg (by simpa using hpragma)]
      have hpragma' : ¬((Meta.of s).needPragma = some true ∧ (Meta.of s).gotPragma = false) := by
        rintro ⟨h1, h2⟩
        exact hpragma ⟨Option.some.inj (hn.symm.trans h1), h2⟩
      rcases hc : s.charset with _ | _ | e
      · refine goes ?_
        rw [stepAt, if_neg hnone, if_neg hpragma']
        simp only [Meta.of, hc, Charset.of]
      · refine goes ?_
        rw [stepAt, if_neg hnone, if_neg hpragma']
        simp only [Meta.of, hc, Charset.of]
      · refine While.loop_inr ?_
        rw [step, hb]
        simp only [stepAt, if_neg hnone, if_neg hpragma']
        simp only [Meta.of, hc, Charset.of, normalizePrescannedEncoding]
        by_cases hutf16 : e = table.utf16Be ∨ e = table.utf16Le
        · rw [if_pos hutf16, if_pos hutf16, if_neg table.utf8_ne_xUserDefined]
        · rw [if_neg hutf16, if_neg hutf16]

/-- The attributes of a `meta` tag, to its outcome. -/
theorem runs_meta (s : MetaAttributes ε) :
    runs table bytes (.getAttribute (some (.of s))) s.pos = resumeTag table bytes
      (While.iterate (metaStep bytes table) (fun s => bytes.length - s.pos) (metaStep_lt bytes table) s) := by
  fun_induction While.iterate (metaStep bytes table) (fun s => bytes.length - s.pos) (metaStep_lt bytes table) s with
  | case1 s s' hs ih =>
    rw [runs_getAttribute, ← ih]
    obtain ⟨name, value, pos, hget, rfl⟩ := metaStep_inl bytes table hs
    rw [hget, resume, MetaAttributes.note_pos]
    cases hb : bytes[pos]? with
    | none => rw [runs_eof table hb, runs_eof table hb]
    | some b => exact runs_sniffed hb { s with pos } name (getAttribute_lower hget)
  | case2 s r hs =>
    rw [runs_getAttribute]
    obtain ⟨pos, ⟨hget, rfl⟩ | ⟨hget, rfl⟩⟩ := metaStep_inr bytes table hs
    · rw [hget]
      rfl
    · rw [hget]
      exact runs_processing (getAttribute_none hget).2 s

/-! ## Other tags -/

/-- The algorithm from a position in the bytes, if there is one. -/
def resumeAt (table : Encodings ε) (bytes : Bytes) : Option Nat → Part (Option ε)
  | none => .some none
  | some pos => runs table bytes .nextByte pos

/-- The attributes of another tag, to its end. -/
theorem runs_tag (pos : Nat) : runs table bytes (.getAttribute none) pos
    = resumeAt table bytes (While.iterate (tagStep bytes) (bytes.length - ·) (tagStep_lt bytes) pos) := by
  fun_induction While.iterate (tagStep bytes) (bytes.length - ·) (tagStep_lt bytes) pos with
  | case1 pos pos' hs ih =>
    rw [runs_getAttribute, ← ih]
    obtain ⟨name, value, hget⟩ := tagStep_inl hs
    rw [hget, resume]
    cases hb : bytes[pos']? with
    | none => rw [runs_eof table hb, runs_eof table hb]
    | some b => exact runs_next hb rfl
  | case2 pos r hs =>
    rw [runs_getAttribute]
    obtain ⟨p, ⟨hget, rfl⟩ | ⟨hget, rfl⟩⟩ := tagStep_inr hs
    · rw [hget]
      rfl
    · rw [hget]
      rfl

end Whatwg

end ChromeLight
