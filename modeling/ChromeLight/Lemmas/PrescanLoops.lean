import ChromeLight.PrescanLoops

/-!
# The loops return what the prescan returns

Running the loops of the prescan from the head of one of them is running them on from what the function with that loop comes to,
function by function, and so from the start the loops return the result of the prescan (`returns_scan`).
-/

namespace ChromeLight

namespace Prescan

variable {ε : Type} {table : Encodings ε} {bytes : Bytes} {b : UInt8} {pos : Nat} [DecidableEq ε]

/-- What the scan returns from a state of its loops on. -/
def returns (table : Encodings ε) (bytes : Bytes) (s : LoopState ε) : Part (Option ε) := While.loop (loopStep bytes table) s

/-- What the scan returns when an iteration comes to that. -/
def resume (table : Encodings ε) (bytes : Bytes) (r : LoopState ε ⊕ Option ε) : Part (Option ε) :=
  While.resume (loopStep bytes table) r

/-- At the end of the bytes the prescan finds nothing. -/
theorem returns_eof (table : Encodings ε) (h : byte bytes pos = none) (loop : Loop ε) :
    returns table bytes (.window loop pos) = .some none :=
  While.loop_inr (by rw [loopStep, h])

/-- At a byte the loop does one step. -/
theorem returns_byte (h : byte bytes pos = some b) (loop : Loop ε) :
    returns table bytes (.window loop pos) = resume table bytes (loopStepAt bytes table pos b loop) := by
  unfold returns resume
  rw [While.loop_eq_resume, loopStep, h]

/-! ## Loops that look for a byte -/

/-- A loop that goes on at every byte of a kind skips such bytes. -/
theorem returns_skipWhile (loop : Loop ε) (pred : UInt8 → Bool)
    (hs : ∀ pos b, pred b = true → loopStepAt bytes table pos b loop = .inl (.window loop (pos + 1))) (pos : Nat) :
    returns table bytes (.window loop pos) = returns table bytes (.window loop (skipWhile bytes pred pos)) := by
  refine loop_skipWhile (LoopState.window loop) ?_ pos
  intro pos b h hp
  rw [loopStep, h]
  exact hs pos b hp

/-- A loop that goes on at every byte but those where it stops finds the first of them. -/
theorem returns_find {loop : Loop ε} {stop : Nat → UInt8 → Bool} (next : Nat → LoopState ε)
    (hs : ∀ pos b, loopStepAt bytes table pos b loop =
      if stop pos b then .inl (next pos) else .inl (.window loop (pos + 1))) (pos : Nat) :
    returns table bytes (.window loop pos)
      = resume table bytes ((Scan.find stop bytes pos).elim (.inr none) fun q => .inl (next q)) := by
  refine Scan.loop_find (LoopState.window loop) (fun q => .inl (next q)) ?_ ?_ pos
  · intro pos h
    rw [loopStep, show byte bytes pos = none from h]
  · intro pos b h
    rw [loopStep, show byte bytes pos = some b from h]
    exact hs pos b

/-! ## Attributes -/

/-- What comes after getting an attribute. -/
def afterAttr (table : Encodings ε) (tag : Option (MetaAttributes ε)) : Attr × Nat → LoopState ε ⊕ Option ε
  | (.eof, _) => .inr none
  | (.none, pos) => afterTag table tag pos
  | (.found name value, pos) => .inl (afterAttribute table tag name value pos)

/-- The loop over a quoted value comes to what reading it does. -/
theorem returns_quoted (tag : Option (MetaAttributes ε)) (name : Bytes) (quote : UInt8) (value : Bytes) (pos : Nat) :
    returns table bytes (.window (.quoted tag quote name value) pos)
      = resume table bytes (afterAttr table tag (readQuoted bytes quote name value pos)) := by
  fun_induction readQuoted bytes quote name value pos with
  | case1 value pos h => exact returns_eof table h _
  | case2 value pos b h hq => rw [returns_byte h, loopStepAt, if_pos hq, afterAttr]
  | case3 value pos b h hq ih =>
    rw [returns_byte h, loopStepAt, if_neg hq]
    exact ih

/-- The loop over an unquoted value comes to what reading it does. -/
theorem returns_unquoted (tag : Option (MetaAttributes ε)) (name value : Bytes) (pos : Nat) :
    returns table bytes (.window (.unquoted tag name value) pos)
      = resume table bytes (afterAttr table tag (readUnquoted bytes name value pos)) := by
  fun_induction readUnquoted bytes name value pos with
  | case1 value pos h => exact returns_eof table h _
  | case2 value pos b h hstop => rw [returns_byte h, loopStepAt, if_pos hstop, afterAttr]
  | case3 value pos b h hstop ih =>
    rw [returns_byte h, loopStepAt, if_neg hstop]
    exact ih

/-- The loops over a value come to what reading it does. -/
theorem returns_value (tag : Option (MetaAttributes ε)) (name : Bytes) (pos : Nat) :
    returns table bytes (.window (.value tag name) pos)
      = resume table bytes (afterAttr table tag (readAttributeValue bytes pos name)) := by
  have hskip : ∀ pos b, isAsciiWs b = true →
      loopStepAt bytes table pos b (.value tag name) = .inl (.window (.value tag name) (pos + 1)) := by
    intro pos b hb
    rw [loopStepAt, if_pos hb]
  rw [returns_skipWhile (.value tag name) isAsciiWs hskip]
  simp only [readAttributeValue]
  split
  · rename_i h
    exact returns_eof table h _
  · rename_i b h
    have hws : ¬isAsciiWs b = true := by simp [skipWhile_stop h]
    rw [returns_byte h, loopStepAt, if_neg hws]
    split
    · exact returns_quoted tag name b [] _
    · split
      · rfl
      · exact returns_unquoted tag name [] _

/-- The loop over spaces after a name comes to what reading on does. -/
theorem returns_spaces (tag : Option (MetaAttributes ε)) (name : Bytes) (pos : Nat) :
    returns table bytes (.window (.spaces tag name) pos)
      = resume table bytes (afterAttr table tag (afterNameWhitespace bytes pos name)) := by
  have hskip : ∀ pos b, isAsciiWs b = true →
      loopStepAt bytes table pos b (.spaces tag name) = .inl (.window (.spaces tag name) (pos + 1)) := by
    intro pos b hb
    rw [loopStepAt, if_pos hb]
  rw [returns_skipWhile (.spaces tag name) isAsciiWs hskip]
  simp only [afterNameWhitespace]
  split
  · rename_i h
    exact returns_eof table h _
  · rename_i b h
    have hws : ¬isAsciiWs b = true := by simp [skipWhile_stop h]
    rw [returns_byte h, loopStepAt, if_neg hws]
    split
    · exact returns_value tag name _
    · rfl

/-- The loop over a name comes to what reading it does. -/
theorem returns_name (tag : Option (MetaAttributes ε)) (name : Bytes) (pos : Nat) :
    returns table bytes (.window (.name tag name) pos)
      = resume table bytes (afterAttr table tag (readName bytes name pos)) := by
  fun_induction readName bytes name pos with
  | case1 name pos h => exact returns_eof table h _
  | case2 name pos b h heq =>
    rw [returns_byte h, loopStepAt, if_pos heq]
    exact returns_value tag name _
  | case3 name pos b h heq hws =>
    rw [returns_byte h, loopStepAt, if_neg heq, if_pos hws]
    exact returns_spaces tag name _
  | case4 name pos b h heq hws hend => rw [returns_byte h, loopStepAt, if_neg heq, if_neg hws, if_pos hend, afterAttr]
  | case5 name pos b h heq hws hend ih =>
    rw [returns_byte h, loopStepAt, if_neg heq, if_neg hws, if_neg hend]
    exact ih

/-- The loops over an attribute come to what getting it does. -/
theorem returns_getAttribute (tag : Option (MetaAttributes ε)) (pos : Nat) :
    returns table bytes (.window (.getAttribute tag) pos)
      = resume table bytes (afterAttr table tag (getAttribute bytes pos)) := by
  have hskip : ∀ pos b, isWsOrSlash b = true →
      loopStepAt bytes table pos b (.getAttribute tag) = .inl (.window (.getAttribute tag) (pos + 1)) := by
    intro pos b hb
    rw [loopStepAt, if_pos hb]
  rw [returns_skipWhile (.getAttribute tag) isWsOrSlash hskip]
  simp only [getAttribute]
  split
  · rename_i h
    exact returns_eof table h _
  · rename_i b h
    have hslash : ¬isWsOrSlash b = true := by simp [skipWhile_stop h]
    rw [returns_byte h, loopStepAt, if_neg hslash]
    split
    · rfl
    · exact returns_name tag [] _

/-! ## The content of a meta tag -/

namespace Extract

variable {content : Bytes}

/-- The loop to a closing quote finds it. -/
theorem loop_quoted (quote : UInt8) (start stop : Nat) : While.loop (step content) (quoted quote start stop)
    = .some ((Scan.find (fun _ c => c == quote) content stop).bind fun stop => slice content start stop) := by
  have hloop : While.loop (step content) (quoted quote start stop) = While.resume (step content)
      ((Scan.find (fun _ c => c == quote) content stop).elim (.inr none) fun stop => .inr (slice content start stop)) := by
    refine Scan.loop_find (quoted quote start) _ ?_ ?_ stop
    · intro stop h
      simp only [step, byte, h]
    · intro stop b h
      simp only [step, byte, h]
  rw [hloop]
  cases Scan.find (fun _ c => c == quote) content stop <;> rfl

/-- The loop to the end of a label finds it. -/
theorem loop_unquoted (start : Nat) {stop : Nat} (hstop : stop ≤ content.length) :
    While.loop (step content) (unquoted start stop) = .some (slice content start
      ((Scan.find (fun _ c => isAsciiWs c || c == ';'.toUInt8) content stop).getD content.length)) := by
  fun_induction Scan.find (fun _ c => isAsciiWs c || c == ';'.toUInt8) content stop with
  | case1 stop h =>
    obtain rfl := Nat.le_antisymm hstop (List.getElem?_eq_none_iff.1 h)
    exact While.loop_inr (by simp only [step, byte, h, Option.getD_none])
  | case2 stop b h hb => exact While.loop_inr (by simp only [step, byte, h, hb, if_true, Option.getD_some])
  | case3 stop b h hb ih =>
    rw [← ih (Scan.lt_of_get h)]
    exact While.loop_inl (by simp only [step, byte, h, hb, Bool.false_eq_true, if_false])

/-- The loops over a label find it. -/
theorem loop_label (p : Nat) : While.loop (step content) (label p) = .some (contentLabel content p) := by
  have hskip : While.loop (step content) (label p) = While.loop (step content) (label (skipWhile content isAsciiWs p)) := by
    refine loop_skipWhile label ?_ p
    intro p b h hb
    simp only [step, h, hb, if_true]
  rw [hskip]
  simp only [contentLabel]
  split
  · rename_i h
    exact While.loop_inr (by simp only [step, h])
  · rename_i b h
    have hws := skipWhile_stop h
    split
    · rename_i hq
      rw [← loop_quoted]
      exact While.loop_inl (by simp only [step, h, hws, hq, Bool.false_eq_true, if_false, if_true])
    · rename_i hq
      rw [← loop_unquoted _ (Nat.le_of_lt (Scan.lt_of_get h))]
      exact While.loop_inl (by simp only [step, h, hws, hq, Bool.false_eq_true, if_false])

/-- The loop after the word goes on to the label, or back to the search. -/
theorem loop_equals (p : Nat) : While.loop (step content) (equals p) = While.loop (step content)
    (if byte content (skipWhile content isAsciiWs p) == some '='.toUInt8 then label (skipWhile content isAsciiWs p + 1)
      else search (skipWhile content isAsciiWs p)) := by
  fun_induction skipWhile content isAsciiWs p with
  | case1 p b h hb ih =>
    rw [← ih]
    exact While.loop_inl (by simp only [step, h, hb, if_true])
  | case2 p b h hb =>
    refine While.loop_inl ?_
    by_cases heq : b == '='.toUInt8 <;> simp [step, h, hb, heq]
  | case3 p h => exact While.loop_inl (by simp [step, h])

/-- The loops over a `content` find its label. -/
theorem loop_search (start : Nat) : While.loop (step content) (search start) = .some
    ((While.iterate (searchStep content) (content.length - ·) (searchStep_lt content) start).bind (contentLabel content)) := by
  fun_induction While.iterate (searchStep content) (content.length - ·) (searchStep_lt content) start with
  | case1 start next hs ih =>
    obtain ⟨found, hfound, rfl, heq⟩ := searchStep_inl hs
    rw [While.loop_inl (show step content (search start) = .inl (equals (found + charsetWord.length)) by
      simp only [step, hfound]), loop_equals, if_neg heq]
    exact ih
  | case2 start r hs =>
    obtain ⟨hfound, rfl⟩ | ⟨found, hfound, rfl, heq⟩ := searchStep_inr hs
    · exact While.loop_inr (by simp only [step, hfound, Option.bind_none])
    · rw [While.loop_inl (show step content (search start) = .inl (equals (found + charsetWord.length)) by
        simp only [step, hfound]), loop_equals, if_pos heq]
      exact loop_label _

end Extract

/-- The scan goes on after the content is searched, without a move. -/
theorem returns_content (tag : MetaAttributes ε) {content : Bytes} {e : Extract} {label : Option Bytes}
    (h : While.loop (Extract.step content) e = .some label) : returns table bytes (.content tag content e)
      = returns table bytes (.window (.getAttribute (some (tag.extracted (label.bind table.forLabel)))) tag.pos) := by
  obtain ⟨e', hsteps, hreturn⟩ := While.loop_eq_some_iff.1 h
  clear h
  induction hsteps using Relation.ReflTransGen.head_induction_on with
  | refl => exact While.loop_inl (by simp only [loopStep, hreturn])
  | @head e e₁ hstep _ ih =>
    rw [← ih]
    exact While.loop_inl (by simp only [loopStep, show e.step content = .inl e₁ from hstep])

omit [DecidableEq ε] in
/-- Noting the content of a tag without a charset. -/
theorem MetaAttributes.note_content (s : MetaAttributes ε) {name : Bytes} (value : Bytes)
    (h : (name == ascii "content" && !s.seenNames.any (· == name) && s.charset.isNone) = true) :
    s.note table name value
      = { s with seenNames := s.seenNames ++ [name] }.extracted (extractEncodingFromMetaContent table value) := by
  simp only [Bool.and_eq_true, Bool.not_eq_true'] at h
  obtain ⟨⟨hname, hnew⟩, hnull⟩ := h
  have hequiv : (name == ascii "http-equiv") = false := by
    rw [beq_iff_eq.1 hname]
    decide
  simp only [note, hname, hnew, hnull, hequiv, Bool.false_eq_true, if_false, if_true]
  cases extractEncodingFromMetaContent table value <;> rfl

/-- After an attribute of a `meta` tag the next one is got. -/
theorem returns_afterAttribute (s : MetaAttributes ε) (name value : Bytes) (pos : Nat) :
    returns table bytes (afterAttribute table (some s) name value pos)
      = returns table bytes (.window (.getAttribute (some ({ s with pos }.note table name value))) pos) := by
  simp only [afterAttribute]
  split
  · rename_i h
    rw [MetaAttributes.note_content { s with pos } value h]
    refine (returns_content _ (Extract.loop_search 0)).trans ?_
    simp only [extractEncodingFromMetaContent, valueStartAfterEq, Option.bind_eq_bind, Option.bind_assoc]
  · rfl

/-! ## Tags -/

/-- The loop over the attributes of a `meta` tag comes to its outcome. -/
theorem returns_meta (s : MetaAttributes ε) : returns table bytes (.window (.getAttribute (some s)) s.pos)
    = resume table bytes (afterOutcome
        (While.iterate (metaStep bytes table) (fun s => bytes.length - s.pos) (metaStep_lt bytes table) s)) := by
  fun_induction While.iterate (metaStep bytes table) (fun s => bytes.length - s.pos) (metaStep_lt bytes table) s with
  | case1 s s' hs ih =>
    rw [returns_getAttribute, ← ih]
    obtain ⟨name, value, pos, hget, rfl⟩ := metaStep_inl bytes table hs
    rw [hget, MetaAttributes.note_pos]
    exact returns_afterAttribute s name value pos
  | case2 s r hs =>
    rw [returns_getAttribute]
    obtain ⟨pos, ⟨hget, rfl⟩ | ⟨hget, rfl⟩⟩ := metaStep_inr bytes table hs
    · rw [hget]
      rfl
    · rw [hget]
      rfl

/-- What comes after skipping a tag or another construct up to a position. -/
def afterSkip (next : Option Nat) : LoopState ε ⊕ Option ε := next.elim (.inr none) fun pos => .inl (.window .scan (pos + 1))

/-- The loop over the attributes of another tag comes to its end. -/
theorem returns_tag (pos : Nat) : returns table bytes (.window (.getAttribute none) pos)
    = resume table bytes (afterSkip (While.iterate (tagStep bytes) (bytes.length - ·) (tagStep_lt bytes) pos)) := by
  fun_induction While.iterate (tagStep bytes) (bytes.length - ·) (tagStep_lt bytes) pos with
  | case1 pos pos' hs ih =>
    rw [returns_getAttribute, ← ih]
    obtain ⟨name, value, hget⟩ := tagStep_inl hs
    rw [hget]
    rfl
  | case2 pos r hs =>
    rw [returns_getAttribute]
    obtain ⟨p, ⟨hget, rfl⟩ | ⟨hget, rfl⟩⟩ := tagStep_inr hs
    · rw [hget]
      rfl
    · rw [hget]
      rfl

/-- The loop over a tag comes to its end. -/
theorem returns_tagName {pos nameStart : Nat} (h : genericTagNameStart bytes pos = some nameStart) :
    returns table bytes (.window .tagName nameStart) = resume table bytes (afterSkip (skipGenericTag bytes pos)) := by
  rw [returns_find (fun q => .window (.getAttribute none) q) (fun _ _ => rfl)]
  unfold skipGenericTag
  rw [h]
  simp only [Option.bind_eq_bind, Option.bind_some]
  cases Scan.find (fun _ b => isAsciiWs b || b == '>'.toUInt8) bytes nameStart with
  | none => rfl
  | some p => exact returns_tag p

/-! ## The scan -/

/-- The loop over a comment comes to its end. -/
theorem returns_comment (pos : Nat) :
    returns table bytes (.window .comment (pos + 4)) = resume table bytes (afterSkip (skipComment bytes pos)) :=
  returns_find (fun q => .window .scan (q + 1)) (fun _ _ => rfl) _

/-- The loop to the next `>` comes to it. -/
theorem returns_toGt (pos : Nat) :
    returns table bytes (.window .toGt (pos + 2)) = resume table bytes (afterSkip (skipToGt bytes pos)) :=
  returns_find (fun q => .window .scan (q + 1)) (fun _ _ => rfl) _

/-- What comes after an iteration of the scan. -/
def afterStep : Nat ⊕ Option ε → LoopState ε ⊕ Option ε
  | .inl pos => .inl (.window .scan pos)
  | .inr r => .inr r

omit [DecidableEq ε] in
/-- Going on is skipping. -/
theorem afterStep_goOn (next : Option Nat) : afterStep (ε := ε) (goOn next) = afterSkip next := by
  cases next <;> rfl

/-- The loops of one round come to the round. -/
theorem returns_step (pos : Nat) :
    returns table bytes (.window .scan pos) = resume table bytes (afterStep (prescanStep bytes table pos)) := by
  unfold prescanStep
  cases hb : byte bytes pos with
  | none =>
    have hge := List.getElem?_eq_none_iff.1 hb
    rw [returns_eof table hb, if_neg (Nat.not_lt.2 hge)]
    rfl
  | some b =>
    rw [returns_byte hb, loopStepAt, scanStart, if_pos (Scan.lt_of_get hb)]
    by_cases hcomment : startsWithAt bytes pos (ascii "<!--") = true
    · rw [if_pos hcomment, if_pos hcomment, afterStep_goOn]
      exact returns_comment pos
    rw [if_neg hcomment, if_neg hcomment]
    cases matchMetaStart bytes pos with
    | some after =>
      have htag : returns table bytes (.window (.getAttribute (some { pos := after })) after)
          = resume table bytes (afterOutcome (scanMetaAttributes bytes table after)) := returns_meta { pos := after }
      simp only
      refine htag.trans ?_
      cases scanMetaAttributes bytes table after <;> rfl
    | none =>
      cases hname : genericTagNameStart bytes pos with
      | some nameStart =>
        simp only [Option.isSome_some, if_true, afterStep_goOn]
        exact returns_tagName hname
      | none =>
        by_cases hother : startsWithBangSlashOrQuestion bytes pos = true
        · simp only [Option.isSome_none, Bool.false_eq_true, if_false, hother, if_true, afterStep_goOn]
          exact returns_toGt pos
        · simp only [Option.isSome_none, Bool.false_eq_true, if_false, hother, afterStep_goOn]
          rfl

/-- From the head of the scan the loops return the result of the scan. -/
theorem returns_scan (table : Encodings ε) (bytes : Bytes) (pos : Nat) : returns table bytes (.window .scan pos)
    = .some (While.iterate (prescanStep bytes table) (bytes.length - ·) (prescanStep_lt bytes table) pos) := by
  fun_induction While.iterate (prescanStep bytes table) (bytes.length - ·) (prescanStep_lt bytes table) pos with
  | case1 pos pos' hs ih =>
    rw [returns_step, hs]
    exact ih
  | case2 pos r hs =>
    rw [returns_step, hs]
    rfl

end Prescan

end ChromeLight
