import ChromeLight.Lemmas.PrescanLoops

/-!
# The prescan terminates

Every iteration of every loop of the prescan decreases a measure (`LoopState.Ok.step`): what is left of the window, and where no byte
is taken the rank of the loop, and in the content of a tag what is left of it. This rests on an invariant, that the first byte of a
name is none that ends it. No position is ever after the end of the window (`prescanMetaCharset_progress`).
-/

namespace ChromeLight

namespace Prescan

variable {ε : Type} {table : Encodings ε} {bytes : Bytes} {b : UInt8} {pos : Nat}

/-! ## The invariant -/

/-- What holds at the head of a loop over the window: the first byte of a name does not end it, and a value is no longer than what
was read. -/
def Loop.Ok (bytes : Bytes) (pos : Nat) : Loop ε → Prop
  | .name _ [] => ∀ b, byte bytes pos = some b → isWsOrSlash b = false ∧ b ≠ '>'.toUInt8
  | .quoted _ _ _ read | .unquoted _ _ read => read.length ≤ pos
  | _ => True

/-- Every position is in the window or at its end, or in a content or at its end. -/
def LoopState.Ok (bytes : Bytes) : LoopState ε → Prop
  | .window loop pos => pos ≤ bytes.length ∧ loop.Ok bytes pos
  | .content tag string e => tag.pos ≤ bytes.length ∧ string.length ≤ tag.pos ∧ e.pos ≤ string.length

theorem LoopState.Ok.pos_le {s : LoopState ε} (h : s.Ok bytes) : s.pos ≤ bytes.length := by
  cases s with
  | window => exact h.1
  | content => exact h.1

/-! ## The measure -/

theorem LoopState.measure_lt_iff {s s' : LoopState ε} : s'.measure bytes < s.measure bytes ↔
    bytes.length - s'.pos < bytes.length - s.pos ∨ bytes.length - s'.pos = bytes.length - s.pos ∧
      (s'.rank < s.rank ∨ s'.rank = s.rank ∧ s'.rest < s.rest) := by
  simp only [measure, Prod.Lex.toLex_lt_toLex]

/-- An iteration has made progress: it took a byte, or went on in a loop of lower rank, or in less of the content. -/
structure Progresses (bytes : Bytes) (s s' : LoopState ε) : Prop where
  ok : s'.Ok bytes
  decreases : s'.measure bytes < s.measure bytes

theorem Progresses.of_pos {s s' : LoopState ε} (hok : s'.Ok bytes) (h : s.pos < s'.pos) : Progresses bytes s s' := by
  have := hok.pos_le
  exact ⟨hok, LoopState.measure_lt_iff.2 (.inl (by omega))⟩

theorem Progresses.of_rank {s s' : LoopState ε} (hok : s'.Ok bytes) (hpos : s'.pos = s.pos) (h : s'.rank < s.rank) :
    Progresses bytes s s' :=
  ⟨hok, LoopState.measure_lt_iff.2 (.inr ⟨by rw [hpos], .inl h⟩)⟩

/-! ## Where a construct starts -/

theorem lt_of_byteAt {offset : Nat} {o : Option UInt8} (h : byteAt bytes pos offset = o) (ho : o.isSome = true) :
    pos + offset < bytes.length := by
  obtain ⟨b, hb⟩ := Option.isSome_iff_exists.1 ho
  exact Scan.lt_of_get (h.trans hb)

theorem startsWithAt_le (h : startsWithAt bytes pos (ascii "<!--") = true) : pos + 4 ≤ bytes.length := by
  have h3 := List.all_eq_true.1 h 3 (by decide)
  exact lt_of_byteAt (beq_iff_eq.1 h3) (by decide)

theorem matchMetaStart_le {after : Nat} (h : matchMetaStart bytes pos = some after) : after ≤ bytes.length := by
  have heq := matchMetaStart_eq h
  unfold matchMetaStart at h
  dsimp only at h
  split at h
  · split at h
    · rename_i b hb
      have := lt_of_byteAt hb rfl
      omega
    · cases h
  · cases h

theorem genericTagNameStart_le {p : Nat} (h : genericTagNameStart bytes pos = some p) : p ≤ bytes.length := by
  unfold genericTagNameStart at h
  split at h
  · cases h
  · dsimp only at h
    split at h
    · rename_i b hb
      split at h
      · obtain rfl := Option.some.inj h
        exact Nat.le_of_lt (Scan.lt_of_get hb)
      · cases h
    · cases h

theorem startsWithBangSlashOrQuestion_le (h : startsWithBangSlashOrQuestion bytes pos = true) : pos + 2 ≤ bytes.length := by
  obtain ⟨-, h1⟩ := Bool.and_eq_true_iff.1 h
  rw [Bool.or_eq_true, Bool.or_eq_true, beq_iff_eq, beq_iff_eq, beq_iff_eq] at h1
  rcases h1 with (h1 | h1) | h1 <;> exact lt_of_byteAt h1 rfl

/-- An iteration of the scan goes on after its position. -/
theorem scanStart_ok (hb : byte bytes pos = some b) :
    (scanStart (ε := ε) bytes pos).Ok bytes ∧ pos < (scanStart (ε := ε) bytes pos).pos := by
  have hlt : pos < bytes.length := Scan.lt_of_get hb
  unfold scanStart
  split
  · rename_i h
    exact ⟨⟨startsWithAt_le h, trivial⟩, show pos < pos + 4 by omega⟩
  · split
    · rename_i after h
      have heq := matchMetaStart_eq h
      exact ⟨⟨matchMetaStart_le h, trivial⟩, show pos < after by omega⟩
    · split
      · rename_i p h
        exact ⟨⟨genericTagNameStart_le h, trivial⟩, genericTagNameStart_lt h⟩
      · split
        · rename_i h
          exact ⟨⟨startsWithBangSlashOrQuestion_le h, trivial⟩, show pos < pos + 2 by omega⟩
        · exact ⟨⟨hlt, trivial⟩, Nat.lt_succ_self pos⟩

/-! ## One iteration -/

/-- What comes after an attribute is at its end, in a loop of a rank below those that may end one there. -/
theorem afterAttribute_ok (table : Encodings ε) (tag : Option (MetaAttributes ε)) (name : Bytes) {value : Bytes} (hpos : pos ≤ bytes.length)
    (hvalue : value.length ≤ pos) :
    let s := afterAttribute table tag name value pos
    s.Ok bytes ∧ s.pos = pos ∧ s.rank ≤ 2 := by
  cases tag with
  | none => exact ⟨⟨hpos, trivial⟩, rfl, show 1 ≤ 2 by decide⟩
  | some s =>
    simp only [afterAttribute]
    split
    · exact ⟨⟨hpos, hvalue, Nat.zero_le _⟩, rfl, show 2 ≤ 2 by decide⟩
    · exact ⟨⟨hpos, trivial⟩, rfl, show 1 ≤ 2 by decide⟩

/-- The end of an attribute, at a byte that is left or after one that is taken. -/
theorem progresses_afterAttribute {loop : Loop ε} {pos' : Nat} (tag : Option (MetaAttributes ε)) (name : Bytes) {value : Bytes}
    (hpos : pos' ≤ bytes.length) (hvalue : value.length ≤ pos') (h : pos < pos' ∨ pos' = pos ∧ 2 < loop.rank) :
    Progresses bytes (.window loop pos) (afterAttribute table tag name value pos') := by
  obtain ⟨hok, heq, hrank⟩ := afterAttribute_ok table tag name hpos hvalue
  rcases h with h | ⟨rfl, h⟩
  · exact .of_pos hok (Nat.lt_of_lt_of_eq h heq.symm)
  · exact .of_rank hok heq (Nat.lt_of_le_of_lt hrank h)

/-- An iteration of the search of a content leaves less of it, or hands over to a loop of lower rank. -/
theorem Extract.step_lt {content : Bytes} {e e' : Extract} (hpos : e.pos ≤ content.length) (h : e.step content = .inl e') :
    e'.pos ≤ content.length ∧ 2 * (content.length - e'.pos) + e'.rank < 2 * (content.length - e.pos) + e.rank := by
  cases e with
  | search start =>
    simp only [step] at h
    split at h
    · cases h
    · rename_i found hfound
      obtain rfl := Sum.inl.inj h
      obtain ⟨h1, h2⟩ := findSubslice_eq_some (by decide) hfound
      rw [length_charsetWord] at h2 ⊢
      simp only [pos, rank] at *
      omega
  | equals p =>
    simp only [step] at h
    split at h
    · obtain rfl := Sum.inl.inj h
      simp only [pos, rank] at *
      omega
    · rename_i b hb
      have hlt := Scan.lt_of_get hb
      split_ifs at h
      all_goals
        obtain rfl := Sum.inl.inj h
        simp only [pos, rank] at *
        omega
  | label p =>
    simp only [step] at h
    split at h
    · cases h
    · rename_i b hb
      have hlt := Scan.lt_of_get hb
      split_ifs at h
      all_goals
        obtain rfl := Sum.inl.inj h
        simp only [pos, rank] at *
        omega
  | quoted quote start stop =>
    simp only [step] at h
    split at h
    · cases h
    · rename_i b hb
      have hlt := Scan.lt_of_get hb
      split_ifs at h
      obtain rfl := Sum.inl.inj h
      simp only [pos, rank] at *
      omega
  | unquoted start stop =>
    simp only [step] at h
    split at h
    · cases h
    · rename_i b hb
      have hlt := Scan.lt_of_get hb
      split_ifs at h
      obtain rfl := Sum.inl.inj h
      simp only [pos, rank] at *
      omega

/-! ### The loops over the window -/

section

variable {loop loop' : Loop ε}

/-- The byte at the position is taken. -/
theorem Progresses.takes (hb : byte bytes pos = some b) (hok : loop'.Ok bytes (pos + 1)) :
    Progresses bytes (.window loop pos) (.window loop' (pos + 1)) :=
  .of_pos ⟨Scan.lt_of_get hb, hok⟩ (Nat.lt_succ_self pos)

/-- The byte at the position is left to a loop of lower rank. -/
theorem Progresses.leaves (hb : byte bytes pos = some b) (hok : loop'.Ok bytes pos) (hrank : loop'.rank < loop.rank) :
    Progresses bytes (.window loop pos) (.window loop' pos) :=
  .of_rank ⟨Nat.le_of_lt (Scan.lt_of_get hb), hok⟩ rfl hrank

/-- The attribute ends before the byte at the position. -/
theorem Progresses.ends (hb : byte bytes pos = some b) (tag : Option (MetaAttributes ε)) (name : Bytes) {value : Bytes}
    (hvalue : value.length ≤ pos) (hrank : 2 < loop.rank) :
    Progresses bytes (.window loop pos) (afterAttribute table tag name value pos) :=
  progresses_afterAttribute tag name (Nat.le_of_lt (Scan.lt_of_get hb)) hvalue (.inr ⟨rfl, hrank⟩)

end

variable [DecidableEq ε]

section

variable {tag : Option (MetaAttributes ε)} {name read : Bytes} {s' : LoopState ε} (hb : byte bytes pos = some b)
include hb

/-- At a `>` the tag ends, where the scan goes on after it; at what is neither a slash nor white space an attribute starts. -/
theorem getAttribute_progresses (h : loopStepAt bytes table pos b (.getAttribute tag) = .inl s') :
    Progresses bytes (.window (.getAttribute tag) pos) s' := by
  simp only [loopStepAt] at h
  split_ifs at h with hslash hgt
  · obtain rfl := Sum.inl.inj h
    exact .takes hb trivial
  · cases tag with
    | none =>
      obtain rfl := Sum.inl.inj h
      exact .takes hb trivial
    | some s =>
      simp only [afterTag] at h
      cases hout : s.outcome table pos with
      | continueAt p =>
        obtain rfl := MetaAttributes.outcome_continueAt table hout
        rw [hout] at h
        obtain rfl := Sum.inl.inj h
        exact .takes hb trivial
      | found enc =>
        rw [hout] at h
        cases h
      | eof =>
        rw [hout] at h
        cases h
  · obtain rfl := Sum.inl.inj h
    refine .leaves hb ?_ (show 0 < 1 by decide)
    intro b' hb'
    obtain rfl := Option.some.inj (hb.symm.trans hb')
    exact ⟨Bool.not_eq_true _ ▸ hslash, fun e => hgt (beq_iff_eq.2 e)⟩

/-- No byte ends an empty name. -/
theorem name_progresses (hok : (Loop.name tag name).Ok bytes pos) (h : loopStepAt bytes table pos b (.name tag name) = .inl s') :
    Progresses bytes (.window (.name tag name) pos) s' := by
  simp only [loopStepAt] at h
  cases name with
  | nil =>
    obtain ⟨hslash, hgt⟩ := hok b hb
    obtain ⟨hws, hslash⟩ := Bool.or_eq_false_iff.1 hslash
    simp only [hws, hslash, beq_eq_false_iff_ne.2 hgt, List.isEmpty_nil, Bool.not_true, Bool.and_false, Bool.or_false,
      Bool.false_eq_true, if_false] at h
    obtain rfl := Sum.inl.inj h
    exact .takes hb trivial
  | cons c name =>
    split_ifs at h
    · obtain rfl := Sum.inl.inj h
      exact .takes hb trivial
    · obtain rfl := Sum.inl.inj h
      exact .leaves hb trivial (show 3 < 4 by decide)
    · obtain rfl := Sum.inl.inj h
      exact .ends hb tag _ (Nat.zero_le pos) (show 2 < 4 by decide)
    · obtain rfl := Sum.inl.inj h
      exact .takes hb trivial

theorem spaces_progresses (h : loopStepAt bytes table pos b (.spaces tag name) = .inl s') :
    Progresses bytes (.window (.spaces tag name) pos) s' := by
  simp only [loopStepAt] at h
  split_ifs at h
  · obtain rfl := Sum.inl.inj h
    exact .takes hb trivial
  · obtain rfl := Sum.inl.inj h
    exact .takes hb trivial
  · obtain rfl := Sum.inl.inj h
    exact .ends hb tag _ (Nat.zero_le pos) (show 2 < 3 by decide)

theorem value_progresses (h : loopStepAt bytes table pos b (.value tag name) = .inl s') :
    Progresses bytes (.window (.value tag name) pos) s' := by
  simp only [loopStepAt] at h
  split_ifs at h
  · obtain rfl := Sum.inl.inj h
    exact .takes hb trivial
  · obtain rfl := Sum.inl.inj h
    exact .takes hb (Nat.zero_le (pos + 1))
  · obtain rfl := Sum.inl.inj h
    exact .ends hb tag _ (Nat.zero_le pos) (show 2 < 4 by decide)
  · obtain rfl := Sum.inl.inj h
    exact .leaves hb (Nat.zero_le pos) (show 3 < 4 by decide)

/-- A quoted value ends after its quote. -/
theorem quoted_progresses {quote : UInt8} (hread : read.length ≤ pos)
    (h : loopStepAt bytes table pos b (.quoted tag quote name read) = .inl s') :
    Progresses bytes (.window (.quoted tag quote name read) pos) s' := by
  have hlt := Scan.lt_of_get hb
  simp only [loopStepAt] at h
  split_ifs at h
  · obtain rfl := Sum.inl.inj h
    exact progresses_afterAttribute tag _ hlt (Nat.le_succ_of_le hread) (.inl (Nat.lt_succ_self pos))
  · obtain rfl := Sum.inl.inj h
    exact .takes hb (by simpa [Loop.Ok] using hread)

theorem unquoted_progresses (hread : read.length ≤ pos) (h : loopStepAt bytes table pos b (.unquoted tag name read) = .inl s') :
    Progresses bytes (.window (.unquoted tag name read) pos) s' := by
  simp only [loopStepAt] at h
  split_ifs at h
  · obtain rfl := Sum.inl.inj h
    exact .ends hb tag _ hread (show 2 < 3 by decide)
  · obtain rfl := Sum.inl.inj h
    exact .takes hb (by simpa [Loop.Ok] using hread)

end

/-- An iteration of a loop over the window takes a byte or hands over to a loop of lower rank. -/
theorem loopStepAt_progresses {loop : Loop ε} (hok : loop.Ok bytes pos) (hb : byte bytes pos = some b) {s' : LoopState ε}
    (h : loopStepAt bytes table pos b loop = .inl s') : Progresses bytes (.window loop pos) s' := by
  cases loop with
  | scan =>
    obtain rfl := Sum.inl.inj h
    obtain ⟨hok, hpos⟩ := scanStart_ok (ε := ε) hb
    exact .of_pos hok hpos
  | comment =>
    simp only [loopStepAt] at h
    split_ifs at h <;> obtain rfl := Sum.inl.inj h <;> exact .takes hb trivial
  | tagName =>
    simp only [loopStepAt] at h
    split_ifs at h
    · obtain rfl := Sum.inl.inj h
      exact .leaves hb trivial (show 1 < 3 by decide)
    · obtain rfl := Sum.inl.inj h
      exact .takes hb trivial
  | toGt =>
    simp only [loopStepAt] at h
    split_ifs at h <;> obtain rfl := Sum.inl.inj h <;> exact .takes hb trivial
  | getAttribute tag => exact getAttribute_progresses hb h
  | name tag name => exact name_progresses hb hok h
  | spaces tag name => exact spaces_progresses hb h
  | value tag name => exact value_progresses hb h
  | quoted tag quote name read => exact quoted_progresses hb hok h
  | unquoted tag name read => exact unquoted_progresses hb hok h

/-- Every iteration makes progress. -/
theorem LoopState.Ok.step {s s' : LoopState ε} (hok : s.Ok bytes) (h : loopStep bytes table s = .inl s') :
    Progresses bytes s s' := by
  cases s with
  | window loop pos =>
    simp only [loopStep] at h
    split at h
    · cases h
    · rename_i b hb
      exact loopStepAt_progresses hok.2 hb h
  | content tag string e =>
    obtain ⟨hpos, hlen, he⟩ := hok
    simp only [loopStep] at h
    split at h
    · rename_i e' hstep
      obtain rfl := Sum.inl.inj h
      obtain ⟨he', hlt⟩ := Extract.step_lt he hstep
      exact ⟨⟨hpos, hlen, he'⟩, measure_lt_iff.2 (.inr ⟨rfl, .inr ⟨rfl, hlt⟩⟩)⟩
    · obtain rfl := Sum.inl.inj h
      exact .of_rank ⟨hpos, trivial⟩ rfl (show 1 < 2 by decide)

/-- Every state the loops are in satisfies the invariant. -/
theorem ok_of_steps {s : LoopState ε} (h : While.Steps (loopStep bytes table) .start s) : s.Ok bytes := by
  refine h.invariant (I := fun s => s.Ok bytes) ?_ ⟨Nat.zero_le _, trivial⟩
  intro s s' hok hb
  exact (hok.step hb).ok

/-! ## Looking ahead -/

omit [DecidableEq ε] in
/-- What starts at a position is decided by the bytes up to `lookahead` after it. -/
theorem scanStart_congr {bytes' : Bytes} (h : ∀ k ≤ lookahead, byteAt bytes' pos k = byteAt bytes pos k) :
    scanStart (ε := ε) bytes' pos = scanStart bytes pos := by
  have hcomment : startsWithAt bytes' pos (ascii "<!--") = startsWithAt bytes pos (ascii "<!--") := by
    unfold startsWithAt
    rw [Bool.eq_iff_iff, List.all_eq_true, List.all_eq_true]
    refine forall₂_congr fun k hk => ?_
    have hlt : k < 4 := List.mem_range.1 hk
    rw [h k (Nat.le_trans (Nat.le_of_lt hlt) (by decide))]
  have hmeta : matchMetaStart bytes' pos = matchMetaStart bytes pos := by
    have h0 := h 0 (by decide)
    have h1 := h 1 (by decide)
    have h2 := h 2 (by decide)
    have h3 := h 3 (by decide)
    have h4 := h 4 (by decide)
    have h5 := h 5 (by decide)
    simp only [matchMetaStart, h0, h1, h2, h3, h4, h5]
  have hname : genericTagNameStart bytes' pos = genericTagNameStart bytes pos := by
    have h1 : byteAt bytes' (pos + 1) 0 = byteAt bytes (pos + 1) 0 := h 1 (by decide)
    have hp : ∀ slash : Bool, byte bytes' (if slash then pos + 2 else pos + 1) = byte bytes (if slash then pos + 2 else pos + 1) := by
      intro slash
      cases slash with
      | true => exact h 2 (by decide)
      | false => exact h 1 (by decide)
    unfold genericTagNameStart
    simp only [h 0 (Nat.zero_le _), h1, hp]
  have hother : startsWithBangSlashOrQuestion bytes' pos = startsWithBangSlashOrQuestion bytes pos := by
    unfold startsWithBangSlashOrQuestion
    rw [h 0 (by decide), h 1 (by decide)]
  unfold scanStart
  rw [hcomment, hmeta, hname, hother]

/-- An iteration looks at no byte more than `lookahead` bytes after its position. -/
theorem loopStep_congr {bytes' : Bytes} {s : LoopState ε} (h : ∀ i ≤ s.pos + lookahead, byte bytes' i = byte bytes i) :
    loopStep bytes' table s = loopStep bytes table s := by
  cases s with
  | content => rfl
  | window loop pos =>
    have hbefore : ∀ k, byteBefore bytes' pos k = byteBefore bytes pos k := by
      intro k
      unfold byteBefore
      rw [h (pos - k) (show pos - k ≤ pos + lookahead by omega)]
    simp only [loopStep, h pos (Nat.le_add_right pos lookahead)]
    cases byte bytes pos with
    | none => rfl
    | some b =>
      cases loop with
      | scan => simp only [loopStepAt, scanStart_congr fun k hk => h (pos + k) (Nat.add_le_add_left hk pos)]
      | comment => simp only [loopStepAt, hbefore]
      | _ => rfl

/-! ## The prescan -/

/-- The loops of the prescan over a window end with a result, and get on all the way. -/
structure Progress (table : Encodings ε) (window : Bytes) (result : Option ε) : Prop where
  returns : While.loop (loopStep window table) .start = .some result
  /-- Every iteration of every loop decreases the measure. -/
  decreases : ∀ s s', While.Steps (loopStep window table) .start s → loopStep window table s = .inl s' →
    s'.measure window < s.measure window
  /-- No position is after the end of the window. -/
  inWindow : ∀ s, While.Steps (loopStep window table) .start s → s.pos ≤ window.length
  /-- No position in a content is after its end. -/
  inContent : ∀ tag content e, While.Steps (loopStep window table) .start (.content tag content e) →
    e.pos ≤ content.length ∧ content.length ≤ window.length
  /-- Bytes more than `lookahead` after the position do not matter to an iteration. -/
  looks : ∀ s window', (∀ i ≤ s.pos + lookahead, byte window' i = byte window i) →
    loopStep window' table s = loopStep window table s
  /-- Every iteration of the scan increases the position. -/
  scan : ∀ pos pos', prescanStep window table pos = .inl pos' → pos < pos'
  /-- Getting an attribute takes a byte. -/
  found : ∀ pos name value pos', getAttribute window pos = (.found name value, pos') → pos < pos' ∧ pos' ≤ window.length
  /-- The search for `charset` starts again after where it started. -/
  retry : ∀ content start next, searchStep content start = .inl next → start < next

/-- The prescan terminates on all bytes. -/
theorem prescanMetaCharset_progress (table : Encodings ε) (bytes : Bytes) :
    Progress table (bytes.take (min bytes.length prescanLimitBytes)) (prescanMetaCharset bytes table) where
  returns := returns_scan table _ 0
  decreases := by
    intro s s' hs h
    exact ((ok_of_steps hs).step h).decreases
  inWindow := by
    intro s hs
    exact (ok_of_steps hs).pos_le
  inContent := by
    intro tag content e hs
    obtain ⟨hpos, hlen, he⟩ := ok_of_steps hs
    exact ⟨he, Nat.le_trans hlen hpos⟩
  looks := by
    intro s window' h
    exact loopStep_congr h
  scan := by
    intro pos pos' h
    have := prescanStep_lt _ table pos pos' h
    omega
  found := by
    intro pos name value pos' h
    exact getAttribute_found h
  retry := by
    intro content start next h
    have := searchStep_lt content start next h
    omega

end Prescan

end ChromeLight
