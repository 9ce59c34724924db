import ChromeLight.Lemmas.Prescan

/-!
# The prescan is the standard's

For all bytes and every label table, the scan of the first 1024 bytes has the result of the standard's algorithm on those
bytes, and both end (`prescanMetaCharset_eq`).
-/

namespace ChromeLight

namespace Whatwg

open Prescan

variable {ε : Type} {table : Encodings ε} {bytes : Bytes} {b : UInt8} {pos : Nat}

/-! ## What is at a position -/

theorem begins_cons (kind : UInt8 → Bool) (kinds : List (UInt8 → Bool)) (bytes : Bytes) (pos : Nat) :
    Begins (kind :: kinds) (bytes.drop pos) = ((bytes[pos]?).any kind && Begins kinds (bytes.drop (pos + 1))) := by
  cases h : bytes[pos]? with
  | none =>
    rw [List.drop_eq_nil_of_le (List.getElem?_eq_none_iff.1 h)]
    rfl
  | some a =>
    obtain ⟨hlt, rfl⟩ := List.getElem?_eq_some_iff.1 h
    rw [List.drop_eq_getElem_cons hlt]
    rfl

theorem begins_nil (bytes : Bytes) : Begins [] bytes = true := by
  cases bytes <;> rfl

theorem any_oneOf (l : Bytes) (o : Option UInt8) : o.any (oneOf l) = decide (∃ b ∈ l, o = some b) := by
  cases o <;> simp [oneOf]

theorem startsWithAt_eq : startsWithAt bytes pos (ascii "<!--") = Begins commentStart (bytes.drop pos) := by
  have hliteral : ascii "<!--" = [0x3C, 0x21, 0x2D, 0x2D] := by decide
  rw [hliteral]
  simp [startsWithAt, List.range_succ, byteAt, byte, commentStart, begins_cons, begins_nil, any_oneOf, beq_eq_decide]

theorem matchMetaStart_eq_begins :
    matchMetaStart bytes pos = if Begins metaStart (bytes.drop pos) then some (pos + 6) else none := by
  have hspace : ∀ o : Option UInt8, o.any (oneOf (spaces ++ [0x2F])) = o.any isWsOrSlash := by
    rintro (_ | b)
    · rfl
    · exact (isWsOrSlash_eq b).symm
  simp only [metaStart, begins_cons, begins_nil, hspace, Bool.and_true, ← Bool.and_assoc]
  simp only [matchMetaStart, byteAt, byte, Nat.add_zero, toUInt8_literals, beq_eq_decide, any_oneOf, List.mem_cons,
    List.not_mem_nil, or_false, exists_eq_or_imp, exists_eq_left, Bool.decide_or, Nat.add_assoc, Nat.reduceAdd]
  cases hb : bytes[pos + 5]? with
  | none => simp
  | some b => by_cases hws : b ∈ spaces ∨ b = 0x2F <;> simp [hws]

theorem metaStart_space (h : Begins metaStart (bytes.drop pos) = true) :
    ∃ c, bytes[pos + 5]? = some c ∧ c ∈ spaces ++ [0x2F] := by
  simp only [metaStart, begins_cons, Bool.and_eq_true, Nat.add_assoc, Nat.reduceAdd] at h
  obtain ⟨-, -, -, -, -, h, -⟩ := h
  rw [any_oneOf, decide_eq_true_eq] at h
  obtain ⟨c, hc, hb⟩ := h
  exact ⟨c, hb, hc⟩

theorem startsWithBangSlashOrQuestion_eq : startsWithBangSlashOrQuestion bytes pos = Begins otherStart (bytes.drop pos) := by
  simp [startsWithBangSlashOrQuestion, otherStart, begins_cons, begins_nil, any_oneOf, byteAt, byte, beq_eq_decide, Bool.or_assoc]

/-- A tag of another name begins where a name can. -/
theorem genericTagNameStart_eq_some_iff {p : Nat} : genericTagNameStart bytes pos = some p ↔
    (Begins tagStart (bytes.drop pos) = true ∧ p = pos + 1) ∨ (Begins endTagStart (bytes.drop pos) = true ∧ p = pos + 2) := by
  have halpha : ∀ b, isAsciiAlphabetic b = isAlpha b := fun _ => rfl
  simp only [tagStart, endTagStart, begins_cons, begins_nil, any_oneOf, Bool.and_true, Bool.and_eq_true, decide_eq_true_eq,
    List.mem_singleton, exists_eq_left, Nat.add_assoc, Nat.reduceAdd]
  unfold genericTagNameStart
  by_cases hlt : bytes[pos]? = some 0x3C
  · rw [if_neg (by simpa [byteAt, byte] using hlt)]
    by_cases hslash : bytes[pos + 1]? = some 0x2F
    · have hif : (byteAt bytes (pos + 1) 0 == some '/'.toUInt8) = true := by simpa [byteAt, byte] using hslash
      have hno : isAlpha 0x2F = false := by decide
      simp only [hif, if_true, byte, hlt, hslash, true_and, Option.any_some, hno, Bool.false_eq_true, false_and, false_or]
      cases h2 : bytes[pos + 2]? with
      | none => simp
      | some b => cases hb : isAlpha b <;> simp [halpha, hb, eq_comm]
    · have hif : ¬(byteAt bytes (pos + 1) 0 == some '/'.toUInt8) = true := by simpa [byteAt, byte] using hslash
      simp only [hif, Bool.false_eq_true, if_false, byte, hlt, hslash, true_and, false_and, or_false]
      cases h1 : bytes[pos + 1]? with
      | none => simp
      | some b => cases hb : isAlpha b <;> simp [halpha, hb, eq_comm]
  · rw [if_pos (by simpa [byteAt, byte] using hlt)]
    simp [hlt]

/-- A comment ends at the first end of one after its start, which may share the dashes. -/
theorem skipComment_eq (hstart : Begins commentStart (bytes.drop pos) = true) : skipComment bytes pos =
    first bytes.length (pos + 1)
      fun q => bytes[q]? = some 0x3E ∧ bytes[q - 1]? = some 0x2D ∧ bytes[q - 2]? = some 0x2D := by
  simp only [commentStart, begins_cons, begins_nil, any_oneOf, Bool.and_true, Bool.and_eq_true, decide_eq_true_eq,
    List.mem_singleton, exists_eq_left, Nat.add_assoc, Nat.reduceAdd] at hstart
  obtain ⟨-, h1, h2, h3⟩ := hstart
  have hskip : ∀ i, pos + 1 ≤ i → i < pos + 4 →
      decide (bytes[i]? = some 0x3E ∧ bytes[i - 1]? = some 0x2D ∧ bytes[i - 2]? = some 0x2D) = false := by
    intro i hi hlt
    obtain rfl | rfl | rfl : i = pos + 1 ∨ i = pos + 2 ∨ i = pos + 3 := by omega
    · simp [h1]
    · simp [h2]
    · simp [h3]
  rw [first_skip (by omega) hskip]
  refine find_eq_first ?_
  intro q b hq hb
  simp only [hb, byteBefore, byte, if_pos (show 1 ≤ q by omega), if_pos (show 2 ≤ q by omega), toUInt8_literals, beq_eq_decide,
    Option.some.injEq, Bool.decide_and, Bool.and_assoc]

theorem skipToGt_eq (hstart : Begins otherStart (bytes.drop pos) = true) :
    skipToGt bytes pos = first bytes.length (pos + 1) fun q => bytes[q]? = some 0x3E := by
  simp only [otherStart, begins_cons, begins_nil, any_oneOf, Bool.and_true, Bool.and_eq_true, decide_eq_true_eq] at hstart
  obtain ⟨-, b, hb, h1⟩ := hstart
  have hne : b ≠ 0x3E := by
    rintro rfl
    revert hb
    decide
  rw [first_skip (show pos + 1 ≤ pos + 2 by omega) fun i hi hlt => by
    obtain rfl : i = pos + 1 := by omega
    simp [h1, hne]]
  refine find_eq_first ?_
  intro q b hq hb
  simp only [hb, toUInt8_literals, beq_eq_decide, Option.some.injEq]

/-- A tag is skipped from the end of its name on. -/
theorem runs_skipGenericTag [DecidableEq ε] {p : Nat} (hp : genericTagNameStart bytes pos = some p) :
    (match first bytes.length (pos + 1) fun q => ∃ b ∈ bytes[q]?, b ∈ spaces ++ [0x3E] with
      | none => .some none
      | some q => runs table bytes (.getAttribute none) q) = resumeAt table bytes (skipGenericTag bytes pos) := by
  have hskip : first bytes.length (pos + 1) (fun q => ∃ b ∈ bytes[q]?, b ∈ spaces ++ [0x3E])
      = first bytes.length p fun q => ∃ b ∈ bytes[q]?, b ∈ spaces ++ [0x3E] := by
    rcases genericTagNameStart_eq_some_iff.1 hp with ⟨-, rfl⟩ | ⟨hend, rfl⟩
    · rfl
    · simp only [endTagStart, begins_cons, any_oneOf, Bool.and_eq_true, decide_eq_true_eq, List.mem_singleton,
        exists_eq_left] at hend
      refine first_skip (by omega) ?_
      intro i hi hlt
      obtain rfl : i = pos + 1 := by omega
      rw [hend.2.1]
      decide
  have hfind : Scan.find (fun _ b => isAsciiWs b || b == '>'.toUInt8) bytes p
      = first bytes.length p fun q => ∃ b ∈ bytes[q]?, b ∈ spaces ++ [0x3E] := by
    refine find_eq_first ?_
    intro q b hq hb
    simp [hb, beq_eq_decide]
  unfold skipGenericTag
  rw [hskip, hp]
  simp only [Option.bind_eq_bind, Option.bind_some, hfind]
  cases first bytes.length p fun q => ∃ b ∈ bytes[q]?, b ∈ spaces ++ [0x3E] with
  | none => rfl
  | some q => exact runs_tag q

/-! ## The scan -/

variable [DecidableEq ε]

theorem runs_nextByte (pos : Nat) : runs table bytes .nextByte pos = runs table bytes .loop (pos + 1) := by
  cases hb : bytes[pos]? with
  | none =>
    rw [runs_eof table hb, runs_eof table (List.getElem?_eq_none_iff.2 ?_)]
    have := List.getElem?_eq_none_iff.1 hb
    omega
  | some b => exact runs_next hb rfl

/-- The algorithm from what an iteration of the scan came to. -/
def resumeStep (table : Encodings ε) (bytes : Bytes) : Nat ⊕ Option ε → Part (Option ε)
  | .inl pos => runs table bytes .loop pos
  | .inr r => .some r

theorem resumeStep_goOn (next : Option Nat) : resumeStep table bytes (goOn next) = resumeAt table bytes next := by
  cases next with
  | none => rfl
  | some pos => exact (runs_nextByte pos).symm

theorem runs_advance (hb : bytes[pos]? = some b) {label label' : Label ε} {P : Nat → Bool}
    (hs : stepAt table bytes pos b label = advance bytes pos P label') :
    runs table bytes label pos = match first bytes.length (pos + 1) P with
      | none => .some none
      | some q => runs table bytes label' q := by
  have hstep : step table bytes ⟨label, pos⟩ = advance bytes pos P label' := by
    rw [step, hb]
    exact hs
  unfold advance at hstep
  cases hf : first bytes.length (pos + 1) P with
  | none => exact While.loop_inr (hstep.trans (by rw [hf]))
  | some q => exact While.loop_inl (hstep.trans (by rw [hf]))

/-- An iteration of the scan. -/
theorem runs_loop (pos : Nat) :
    runs table bytes .loop pos = resumeStep table bytes (prescanStep bytes table pos) := by
  unfold prescanStep
  cases hb : bytes[pos]? with
  | none =>
    rw [runs_eof table hb, if_neg (by simpa using List.getElem?_eq_none_iff.1 hb)]
    rfl
  | some b =>
    rw [if_pos (Scan.lt_of_get hb), startsWithAt_eq, matchMetaStart_eq_begins, startsWithBangSlashOrQuestion_eq]
    by_cases hcomment : Begins commentStart (bytes.drop pos) = true
    · rw [if_pos hcomment, resumeStep_goOn, skipComment_eq hcomment]
      refine (runs_advance hb (by rw [stepAt, if_pos hcomment])).trans ?_
      cases first bytes.length (pos + 1) _ <;> rfl
    rw [if_neg hcomment]
    by_cases hmeta : Begins metaStart (bytes.drop pos) = true
    · obtain ⟨c, hc, hspace⟩ := metaStart_space hmeta
      have hattribute : ∀ pos, stepAt table bytes pos c (.getAttribute (some {})) = .inl ⟨.getAttribute (some {}), pos + 1⟩ :=
        fun pos => by rw [stepAt, if_pos hspace]
      rw [if_pos hmeta, runs_next hb (by rw [stepAt, if_neg hcomment, if_pos hmeta]), runs_next hc (hattribute _)]
      have htag : runs table bytes (.getAttribute (some (.of { pos := pos + 6 }))) (pos + 6) = _ := runs_meta _
      refine htag.trans ?_
      rw [← scanMetaAttributes]
      simp only
      cases scanMetaAttributes bytes table (pos + 6) with
      | eof => rfl
      | found e => rfl
      | continueAt p => exact (resumeStep_goOn (some p)).symm
    rw [if_neg hmeta]
    simp only
    have htag : (Begins tagStart (bytes.drop pos) = true ∨ Begins endTagStart (bytes.drop pos) = true) ↔
        (genericTagNameStart bytes pos).isSome = true := by
      rw [Option.isSome_iff_exists]
      simp only [genericTagNameStart_eq_some_iff, exists_or, exists_and_left, exists_eq, and_true]
    by_cases hname : (genericTagNameStart bytes pos).isSome = true
    · obtain ⟨p, hp⟩ := Option.isSome_iff_exists.1 hname
      rw [if_pos hname, resumeStep_goOn, ← runs_skipGenericTag hp]
      refine runs_advance hb ?_
      rw [stepAt, if_neg hcomment, if_neg hmeta, if_pos (htag.2 hname)]
    rw [if_neg hname]
    by_cases hother : Begins otherStart (bytes.drop pos) = true
    · rw [if_pos hother, resumeStep_goOn, skipToGt_eq hother]
      refine (runs_advance hb (by rw [stepAt, if_neg hcomment, if_neg hmeta, if_neg (mt htag.1 hname), if_pos hother])).trans ?_
      cases first bytes.length (pos + 1) _ <;> rfl
    · rw [if_neg hother, resumeStep_goOn]
      refine runs_next hb ?_
      rw [stepAt, if_neg hcomment, if_neg hmeta, if_neg (mt htag.1 hname), if_neg hother]

/-- The scan of a window has the result of the algorithm. -/
theorem runs_scan (table : Encodings ε) (window : Bytes) (pos : Nat) : runs table window .loop pos
    = .some (While.iterate (prescanStep window table) (window.length - ·) (prescanStep_lt window table) pos) := by
  fun_induction While.iterate (prescanStep window table) (window.length - ·) (prescanStep_lt window table) pos with
  | case1 pos pos' hs ih => rw [runs_loop, hs, ← ih, resumeStep]
  | case2 pos r hs => rw [runs_loop, hs, resumeStep]

/-- The scan has the result of the algorithm on the first bytes, for all bytes and every label table. -/
theorem prescanMetaCharset_eq (table : Encodings ε) (bytes : Bytes) :
    prescan table (bytes.take (min bytes.length 1024)) = .some (prescanMetaCharset bytes table) := runs_scan table _ 0

end Whatwg

end ChromeLight
