import ChromeLight.Theorems.Prescan

/-!
# The prescan and more input

A decision of the prescan is final: when more bytes come it is the same (`prescanMetaCharset_append`). The standard's algorithm is
at the same step with more bytes as without, unless it stands where the end of the bytes cuts off the start of a construct, or the
search for the end of one. No `>` comes after such a start (`begins_append`), and without a `>` to come there is no result that
more bytes could change (`runs_unended`).
-/

namespace ChromeLight

namespace Whatwg

open Prescan

variable {ε : Type} {table : Encodings ε} {bytes : Bytes} {b : UInt8} {pos : Nat}

/-- No `>` comes from a position on. -/
def Unended (bytes : Bytes) (pos : Nat) : Prop := ∀ i, pos ≤ i → bytes[i]? ≠ some 0x3E

/-! ## What more bytes change -/

/-- A sequence that stands only with more bytes is cut off: the bytes there are of the kinds that come before its last. -/
theorem begins_cut {kinds : List (UInt8 → Bool)} {rest more : Bytes} (hno : Begins kinds rest = false)
    (hyes : Begins kinds (rest ++ more) = true) : ∀ b ∈ rest, ∃ kind ∈ kinds.dropLast, kind b = true := by
  induction kinds generalizing rest with
  | nil =>
    rw [begins_nil] at hno
    cases hno
  | cons kind kinds ih =>
    cases rest with
    | nil => exact fun b hb => absurd hb List.not_mem_nil
    | cons a rest =>
      obtain ⟨ha, hyes⟩ := Bool.and_eq_true_iff.1 hyes
      have hno : Begins kinds rest = false := by
        have : (kind a && Begins kinds rest) = false := hno
        rwa [ha, Bool.true_and] at this
      have hne : kinds ≠ [] := by
        rintro rfl
        rw [begins_nil] at hno
        cases hno
      rw [List.dropLast_cons_of_ne_nil hne]
      intro b hb
      rcases List.mem_cons.1 hb with rfl | hb
      · exact ⟨kind, List.mem_cons_self, ha⟩
      · obtain ⟨k, hk, hkb⟩ := ih hno hyes b hb
        exact ⟨k, List.mem_cons_of_mem _ hk, hkb⟩

/-- A sequence that stands stands with more bytes. -/
theorem begins_more {kinds : List (UInt8 → Bool)} {rest : Bytes} (h : Begins kinds rest = true) (more : Bytes) :
    Begins kinds (rest ++ more) = true := by
  induction kinds generalizing rest with
  | nil => exact begins_nil _
  | cons kind kinds ih =>
    cases rest with
    | nil => cases h
    | cons a rest =>
      obtain ⟨ha, h⟩ := Bool.and_eq_true_iff.1 h
      exact Bool.and_eq_true_iff.2 ⟨ha, ih h⟩

/-- Whether a sequence stands at a position does not change with more bytes, where a `>` comes after the position: no byte of
the sequence but its last may be one. -/
theorem begins_append {kinds : List (UInt8 → Bool)} (hkinds : ∀ kind ∈ kinds.dropLast, kind 0x3E = false)
    (hpos : pos ≤ bytes.length) (hended : ¬Unended bytes pos) (more : Bytes) :
    Begins kinds ((bytes ++ more).drop pos) = Begins kinds (bytes.drop pos) := by
  rw [List.drop_append_of_le_length hpos]
  cases hno : Begins kinds (bytes.drop pos) with
  | true => exact begins_more hno more
  | false =>
    by_contra hyes
    refine hended fun i hi hgt => ?_
    have hmem : 0x3E ∈ bytes.drop pos := by
      refine List.mem_of_getElem? (i := i - pos) ?_
      rw [List.getElem?_drop, Nat.add_sub_cancel' hi]
      exact hgt
    obtain ⟨kind, hkind, hk⟩ := begins_cut hno (Bool.not_eq_false _ ▸ hyes) _ hmem
    rw [hkinds kind hkind] at hk
    cases hk

/-- An advance that finds a byte finds the same with more bytes. -/
theorem advance_append {P P' : Nat → Bool} (hP : ∀ i, i < bytes.length → P' i = P i) (more : Bytes) (label : Label ε) :
    advance (bytes ++ more) pos P' label = advance bytes pos P label ∨ advance bytes pos P label = .inr none := by
  unfold advance
  cases hfirst : first bytes.length (pos + 1) P with
  | none => exact .inr rfl
  | some q =>
    obtain ⟨hle, hlt, hq, hleast⟩ := first_eq_some_iff.1 hfirst
    have hsame : first (bytes ++ more).length (pos + 1) P' = some q := by
      refine first_eq_some_iff.2 ⟨hle, by rw [List.length_append]; omega, (hP q hlt).trans hq, fun i hi hiq => ?_⟩
      exact (hP i (Nat.lt_trans hiq hlt)).trans (hleast i hi hiq)
    rw [hsame]
    exact .inl rfl

/-! ## No end in sight -/

/-- Whether the attributes of a `meta` tag are all there. -/
def Label.isProcessing : Label ε → Bool
  | .processing _ => true
  | _ => false

/-- What a step comes to that decides nothing: a position that is not before, and no tag whose attributes are all there. -/
def Undecided (pos : Nat) : State ε ⊕ Option ε → Prop
  | .inl s => pos ≤ s.position ∧ s.label.isProcessing = false
  | .inr r => r = none

theorem undecided_advance {P : Nat → Bool} {label : Label ε} (hlabel : label.isProcessing = false) :
    Undecided pos (advance bytes pos P label) := by
  unfold advance
  split
  · rfl
  · rename_i q hq
    exact ⟨Nat.le_of_lt (first_eq_some_iff.1 hq).1, hlabel⟩

variable [DecidableEq ε]

/-- A step at a byte other than `>` decides nothing, unless the attributes of a `meta` tag are all there. -/
theorem undecided_stepAt (hb : b ≠ 0x3E) {label : Label ε} (hlabel : label.isProcessing = false) :
    Undecided pos (stepAt table bytes pos b label) := by
  have stay : ∀ {label : Label ε} {pos' : Nat}, pos ≤ pos' → label.isProcessing = false →
      Undecided pos (.inl ⟨label, pos'⟩) := fun hle hlabel => ⟨hle, hlabel⟩
  cases label with
  | processing m => cases hlabel
  | loop =>
    simp only [stepAt]
    split_ifs
    · exact undecided_advance rfl
    · exact stay (Nat.le_add_right pos 5) rfl
    · exact undecided_advance rfl
    · exact undecided_advance rfl
    · exact stay (Nat.le_refl pos) rfl
  | nextByte => exact stay (Nat.le_succ pos) rfl
  | getAttribute tag =>
    simp only [stepAt, if_neg hb]
    split_ifs
    · exact stay (Nat.le_succ pos) rfl
    · exact stay (Nat.le_refl pos) rfl
  | quoteLoop tag name quote value => exact stay (Nat.le_succ pos) rfl
  | sniffed tag name value =>
    cases tag with
    | none => exact stay (Nat.le_refl pos) rfl
    | some m =>
      simp only [stepAt]
      split_ifs <;> exact stay (Nat.le_refl pos) rfl
  | extract m string start =>
    simp only [stepAt]
    split
    · exact stay (Nat.le_refl pos) rfl
    · split_ifs <;> exact stay (Nat.le_refl pos) rfl
  | _ =>
    simp only [stepAt]
    split_ifs <;> exact stay (by omega) rfl

/-- Without a `>` to come the algorithm has no result. -/
theorem runs_unended (hopen : Unended bytes pos) {r : Option ε} (h : runs table bytes .loop pos = .some r) : r = none := by
  -- every step decides nothing, and leaves no `>` behind
  have hstep : ∀ s : State ε, Unended bytes s.position ∧ s.label.isProcessing = false →
      Undecided s.position (step table bytes s) := by
    rintro ⟨label, pos⟩ ⟨hopen, hlabel⟩
    rw [step]
    cases hb : bytes[pos]? with
    | none => rfl
    | some b =>
      refine undecided_stepAt ?_ hlabel
      rintro rfl
      exact hopen pos (Nat.le_refl pos) hb
  have hkeep : ∀ s s' : State ε, (Unended bytes s.position ∧ s.label.isProcessing = false) → step table bytes s = .inl s' →
      Unended bytes s'.position ∧ s'.label.isProcessing = false := by
    intro s s' hs hs'
    have hnext := hstep s hs
    rw [hs'] at hnext
    exact ⟨fun i hi => hs.1 i (Nat.le_trans hnext.1 hi), hnext.2⟩
  obtain ⟨s, -, hs, hreturn⟩ := While.loop_invariant hkeep ⟨hopen, rfl⟩ h
  have hnone := hstep s hs
  rw [hreturn] at hnone
  exact hnone

/-! ## The algorithm -/

/-- Where a result is still to come, an advance is the same with more bytes. -/
theorem advance_more {e : ε} (h : runs table bytes .loop pos = .some (some e)) (hb : bytes[pos]? = some b) {P P' : Nat → Bool}
    {label : Label ε} (hs : advance bytes pos P label = stepAt table bytes pos b .loop)
    (hP : ∀ i, i < bytes.length → P' i = P i) (more : Bytes) :
    advance (bytes ++ more) pos P' label = stepAt table bytes pos b .loop := by
  rw [← hs]
  refine (advance_append hP more label).resolve_right fun hnone => ?_
  have habort : runs table bytes .loop pos = .some none := While.loop_inr (by rw [step, hb]; exact hs.symm.trans hnone)
  cases Part.some_injective (habort.symm.trans h)

/-- Where a result is still to come, what stands at a position is the same with more bytes. -/
theorem stepAt_loop_append {e : ε} (h : runs table bytes .loop pos = .some (some e)) (hb : bytes[pos]? = some b) (more : Bytes) :
    stepAt table (bytes ++ more) pos b .loop = stepAt table bytes pos b .loop := by
  have hpos : pos < bytes.length := Scan.lt_of_get hb
  have hended : ¬Unended bytes pos := fun hopen => by cases runs_unended hopen h
  have hbegins : ∀ kinds, (∀ kind ∈ kinds.dropLast, kind 0x3E = false) →
      Begins kinds ((bytes ++ more).drop pos) = Begins kinds (bytes.drop pos) :=
    fun kinds hkinds => begins_append hkinds (Nat.le_of_lt hpos) hended more
  have hstart := hbegins commentStart (by simp [commentStart, oneOf])
  have hmetaStart := hbegins metaStart (by simp [metaStart, oneOf])
  have htagStart := hbegins tagStart (by simp [tagStart, oneOf])
  have hendStart := hbegins endTagStart (by simp [endTagStart, oneOf])
  have hotherStart := hbegins otherStart (by simp [otherStart, oneOf])
  have hs : stepAt table bytes pos b .loop = stepAt table bytes pos b .loop := rfl
  conv_lhs at hs => rw [stepAt]
  conv_lhs => rw [stepAt, hstart, hmetaStart, htagStart, hendStart, hotherStart]
  by_cases hcomment : Begins commentStart (bytes.drop pos) = true
  · rw [if_pos hcomment] at hs ⊢
    refine advance_more h hb hs (fun i hi => ?_) more
    have hbefore : ∀ k, (bytes ++ more)[i - k]? = bytes[i - k]? := fun k => List.getElem?_append_left (Nat.sub_lt_of_lt hi)
    rw [List.getElem?_append_left hi, hbefore 1, hbefore 2]
  rw [if_neg hcomment] at hs ⊢
  by_cases hmeta : Begins metaStart (bytes.drop pos) = true
  · rwa [if_pos hmeta] at hs ⊢
  rw [if_neg hmeta] at hs ⊢
  by_cases htag : Begins tagStart (bytes.drop pos) = true ∨ Begins endTagStart (bytes.drop pos) = true
  · rw [if_pos htag] at hs ⊢
    exact advance_more h hb hs (fun i hi => by rw [List.getElem?_append_left hi]) more
  rw [if_neg htag] at hs ⊢
  by_cases hother : Begins otherStart (bytes.drop pos) = true
  · rw [if_pos hother] at hs ⊢
    exact advance_more h hb hs (fun i hi => by rw [List.getElem?_append_left hi]) more
  · rwa [if_neg hother] at hs ⊢

/-- Where a result is still to come, a step of the algorithm is the same with more bytes. -/
theorem step_append {e : ε} {s : State ε} (h : While.loop (step table bytes) s = .some (some e)) (more : Bytes) :
    step table (bytes ++ more) s = step table bytes s := by
  obtain ⟨label, pos⟩ := s
  cases hb : bytes[pos]? with
  | none => cases Part.some_injective ((runs_eof table hb label).symm.trans h)
  | some b =>
    rw [step, step, List.getElem?_append_left (Scan.lt_of_get hb), hb]
    -- only at the start of a construct the bytes after it are looked at
    cases label with
    | loop => exact stepAt_loop_append h hb more
    | sniffed tag name value => cases tag <;> rfl
    | _ => rfl

/-- A result of the algorithm is its result with more bytes. -/
theorem runs_append {e : ε} (h : runs table bytes .loop pos = .some (some e)) (more : Bytes) :
    runs table (bytes ++ more) .loop pos = .some (some e) :=
  While.loop_agree _ (fun _ hs => step_append hs more) h

/-- What the prescan decides it decides with more input, and from 1024 bytes on more input changes nothing. -/
theorem prescanMetaCharset_append (table : Encodings ε) (bytes more : Bytes) :
    (∀ e, prescanMetaCharset bytes table = some e → prescanMetaCharset (bytes ++ more) table = some e) ∧
      (1024 ≤ bytes.length → prescanMetaCharset (bytes ++ more) table = prescanMetaCharset bytes table) := by
  have htake : ∀ bytes : Bytes, bytes.take (min bytes.length prescanLimitBytes) = bytes.take 1024 := fun bytes => by
    rw [prescanLimitBytes, Nat.min_comm, ← List.take_eq_take_min]
  have hfull : 1024 ≤ bytes.length → prescanMetaCharset (bytes ++ more) table = prescanMetaCharset bytes table := by
    intro hlen
    have hwindow : (bytes ++ more).take 1024 = bytes.take 1024 := List.take_append_of_le_length hlen
    simp only [prescanMetaCharset, htake, hwindow]
  refine ⟨fun e he => ?_, hfull⟩
  rcases Nat.le_total 1024 bytes.length with hlen | hlen
  · exact (hfull hlen).trans he
  · have hrun : runs table (bytes.take 1024) .loop 0 = .some (some e) := by
      rw [runs_scan, ← he]
      simp only [prescanMetaCharset, htake]
    have hmore := runs_append hrun (more.take (1024 - bytes.length))
    have hwindow : (bytes ++ more).take 1024 = bytes.take 1024 ++ more.take (1024 - bytes.length) := List.take_append
    rw [← hwindow, runs_scan] at hmore
    simp only [prescanMetaCharset, htake]
    exact Part.some_injective hmore

end Whatwg

end ChromeLight
