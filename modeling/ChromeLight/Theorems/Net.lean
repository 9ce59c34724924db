import ChromeLight.Net

/-!
# Loading files

The loader returns a file as a whole or not at all, and looks at no more than one byte above its cap, whatever size was reported
before and however the file goes on (`loadFileWithCap_exact`).
-/

namespace ChromeLight

namespace Net

variable {υ ρ : Type} {C : UrlCrate υ ρ} {fs : FileSystem ρ} {stream : Stream} {limit place : Nat}

/-- The stream has those bytes from a place on. -/
def Gives (stream : Stream) (place : Nat) (bytes : Bytes) : Prop :=
  ∀ i b, bytes[i]? = some b → stream (place + i) = .ok (some b)

theorem Gives.nil (stream : Stream) (place : Nat) : Gives stream place [] := nofun

theorem gives_cons {b : UInt8} {bytes : Bytes} :
    Gives stream place (b :: bytes) ↔ stream place = .ok (some b) ∧ Gives stream (place + 1) bytes := by
  constructor
  · intro h
    refine ⟨h 0 b rfl, ?_⟩
    intro i c hi
    rw [Nat.add_right_comm]
    exact h (i + 1) c hi
  · rintro ⟨hb, h⟩ i c hi
    cases i with
    | zero =>
      obtain rfl := Option.some.inj hi
      exact hb
    | succ i =>
      have := h i c hi
      rwa [Nat.add_right_comm] at this

/-- Reading to the end stops at the end of the stream or at the limit. -/
theorem readToEnd_eq_ok_iff {bytes : Bytes} : readToEnd stream limit place = .ok bytes ↔
    Gives stream place bytes ∧ bytes.length ≤ limit ∧ (bytes.length = limit ∨ stream (place + bytes.length) = .ok none) := by
  induction limit generalizing place bytes with
  | zero =>
    constructor
    · intro h
      obtain rfl := Except.ok.inj h
      exact ⟨.nil stream place, Nat.le_refl _, .inl rfl⟩
    · rintro ⟨-, hlen, -⟩
      rw [List.eq_nil_of_length_eq_zero (Nat.le_zero.1 hlen)]
      rfl
  | succ limit ih =>
    rw [readToEnd]
    cases hplace : stream place with
    | error e =>
      simp only [reduceCtorEq, false_iff]
      rintro ⟨hgives, -, hend⟩
      cases bytes with
      | nil => simp [hplace] at hend
      | cons b bytes =>
        rw [gives_cons, hplace] at hgives
        cases hgives.1
    | ok found =>
      cases found with
      | none =>
        constructor
        · intro h
          obtain rfl := Except.ok.inj h
          exact ⟨.nil stream place, Nat.zero_le _, .inr hplace⟩
        · rintro ⟨hgives, -, -⟩
          cases bytes with
          | nil => rfl
          | cons b bytes =>
            rw [gives_cons, hplace] at hgives
            cases hgives.1
      | some b =>
        cases bytes with
        | nil =>
          constructor
          · intro h
            cases hr : readToEnd stream limit (place + 1) <;> rw [hr] at h <;> cases h
          · rintro ⟨-, -, hend⟩
            simp [hplace] at hend
        | cons b' bytes =>
          rw [gives_cons, hplace, List.length_cons, Nat.add_le_add_iff_right, Nat.add_right_cancel_iff, ← Nat.add_assoc,
            Nat.add_right_comm]
          constructor
          · intro h
            cases hr : readToEnd stream limit (place + 1) with
            | error e =>
              rw [hr] at h
              cases h
            | ok rest =>
              rw [hr] at h
              obtain ⟨rfl, rfl⟩ := List.cons.inj (Except.ok.inj h)
              obtain ⟨hgives, hlen, hend⟩ := ih.1 hr
              exact ⟨⟨rfl, hgives⟩, hlen, hend⟩
          · rintro ⟨⟨hb, hgives⟩, hlen, hend⟩
            obtain rfl := Option.some.inj (Except.ok.inj hb)
            rw [ih.2 ⟨hgives, hlen, hend⟩]
            rfl

/-- No more is read than the limit. -/
theorem readToEnd_congr {stream' : Stream} (h : ∀ i < limit, stream (place + i) = stream' (place + i)) :
    readToEnd stream limit place = readToEnd stream' limit place := by
  induction limit generalizing place with
  | zero => rfl
  | succ limit ih =>
    have hrest : readToEnd stream limit (place + 1) = readToEnd stream' limit (place + 1) := by
      refine ih ?_
      intro i hi
      rw [Nat.add_right_comm]
      exact h (i + 1) (by omega)
    have hplace : stream place = stream' place := h 0 (by omega)
    rw [readToEnd, readToEnd, hplace, hrest]

/-- The stream of a URL's file, once the size that was reported for it was found to be no larger than the cap. -/
structure Opens (C : UrlCrate υ ρ) (fs : FileSystem ρ) (url : υ) (cap : Nat) (stream : Stream) : Prop where
  scheme : C.scheme url = "file"
  file : ∃ path size, Url.toFilePath C url = some path ∧ fs.metadata path = .ok size ∧ size ≤ cap ∧ fs.openFile path = .ok stream

/-- A URL's file is reported to be larger than the cap. -/
def ReportedLarger (C : UrlCrate υ ρ) (fs : FileSystem ρ) (url : υ) (cap size : Nat) : Prop :=
  C.scheme url = "file" ∧ ∃ path, Url.toFilePath C url = some path ∧ fs.metadata path = .ok size ∧ cap < size

/-- Either the file is read, or an error says why not before anything is. -/
theorem loadFileWithCap_cases (C : UrlCrate υ ρ) (fs : FileSystem ρ) (url : υ) (cap : Nat) :
    (∃ stream, Opens C fs url cap stream) ∨ (∃ size, ReportedLarger C fs url cap size ∧
      loadFileWithCap C fs url cap = .error (.tooLarge size cap)) ∨
    (¬∃ stream, Opens C fs url cap stream) ∧ (¬∃ size, ReportedLarger C fs url cap size) ∧
      ∃ e, loadFileWithCap C fs url cap = .error e ∧ ∀ size max, e ≠ .tooLarge size max := by
  unfold loadFileWithCap
  by_cases hscheme : C.scheme url = "file"
  · rw [if_neg (not_not_intro hscheme)]
    cases hpath : Url.toFilePath C url with
    | none =>
      refine .inr (.inr ⟨?_, ?_, _, rfl, nofun⟩)
      · rintro ⟨stream, -, path, size, h, -⟩
        rw [hpath] at h
        cases h
      · rintro ⟨size, -, path, h, -⟩
        rw [hpath] at h
        cases h
    | some path =>
      dsimp only
      cases hmeta : fs.metadata path with
      | error e =>
        refine .inr (.inr ⟨?_, ?_, _, rfl, nofun⟩)
        · rintro ⟨stream, -, path', size, h, h', -⟩
          obtain rfl := Option.some.inj (hpath.symm.trans h)
          rw [hmeta] at h'
          cases h'
        · rintro ⟨size, -, path', h, h', -⟩
          obtain rfl := Option.some.inj (hpath.symm.trans h)
          rw [hmeta] at h'
          cases h'
      | ok size =>
        by_cases hsize : cap < size
        · exact .inr (.inl ⟨size, ⟨hscheme, path, hpath, hmeta, hsize⟩, if_pos hsize⟩)
        · dsimp only
          rw [if_neg hsize]
          cases hopen : fs.openFile path with
          | error e =>
            refine .inr (.inr ⟨?_, ?_, _, rfl, nofun⟩)
            · rintro ⟨stream, -, path', size', h, -, -, h'⟩
              obtain rfl := Option.some.inj (hpath.symm.trans h)
              rw [hopen] at h'
              cases h'
            · rintro ⟨size', -, path', h, h', hlt⟩
              obtain rfl := Option.some.inj (hpath.symm.trans h)
              obtain rfl := Except.ok.inj (hmeta.symm.trans h')
              exact hsize hlt
          | ok stream => exact .inl ⟨stream, hscheme, path, size, hpath, hmeta, Nat.le_of_not_lt hsize, hopen⟩
  · rw [if_pos hscheme]
    refine .inr (.inr ⟨?_, ?_, _, rfl, nofun⟩)
    · rintro ⟨stream, h, -⟩
      exact hscheme h
    · rintro ⟨size, h, -⟩
      exact hscheme h

/-- What becomes of a file that was opened. -/
theorem Opens.load_eq {url : υ} {cap : Nat} (h : Opens C fs url cap stream) (hcap : cap < u64Max) :
    loadFileWithCap C fs url cap = match readToEnd stream (cap + 1) 0 with
      | .error e => .error (.io e)
      | .ok buf => if cap < buf.length then .error (.tooLarge buf.length cap) else .ok buf := by
  obtain ⟨hscheme, path, size, hpath, hmeta, hsize, hopen⟩ := h
  have hlimit : min (cap + 1) u64Max = cap + 1 := Nat.min_eq_left (by omega)
  rw [loadFileWithCap, if_neg (not_not_intro hscheme), hpath]
  dsimp only
  rw [hmeta]
  dsimp only
  rewrite [if_neg (Nat.not_lt_of_le hsize), hopen, hlimit]
  rfl

theorem Opens.unique {url : υ} {cap : Nat} {stream' : Stream} (h : Opens C fs url cap stream) (h' : Opens C fs url cap stream') :
    stream = stream' := by
  obtain ⟨-, path, -, hpath, -, -, hopen⟩ := h
  obtain ⟨-, path', -, hpath', -, -, hopen'⟩ := h'
  obtain rfl := Option.some.inj (hpath.symm.trans hpath')
  exact Except.ok.inj (hopen.symm.trans hopen')

theorem Opens.not_reportedLarger {url : υ} {cap size : Nat} (h : Opens C fs url cap stream) :
    ¬ReportedLarger C fs url cap size := by
  obtain ⟨-, path, size', hpath, hmeta, hsize, -⟩ := h
  rintro ⟨-, path', hpath', hmeta', hlt⟩
  obtain rfl := Option.some.inj (hpath.symm.trans hpath')
  obtain rfl := Except.ok.inj (hmeta.symm.trans hmeta')
  omega

theorem ReportedLarger.unique {url : υ} {cap size size' : Nat} (h : ReportedLarger C fs url cap size)
    (h' : ReportedLarger C fs url cap size') : size = size' := by
  obtain ⟨-, path, hpath, hmeta, -⟩ := h
  obtain ⟨-, path', hpath', hmeta', -⟩ := h'
  obtain rfl := Option.some.inj (hpath.symm.trans hpath')
  exact Except.ok.inj (hmeta.symm.trans hmeta')

/-- A file is loaded if it is reported to be no larger than the cap and ends within it, and then all of it is. -/
theorem loadFileWithCap_eq_ok_iff {url : υ} {cap : Nat} (hcap : cap < u64Max) {bytes : Bytes} :
    loadFileWithCap C fs url cap = .ok bytes ↔
      ∃ stream, Opens C fs url cap stream ∧ Gives stream 0 bytes ∧ stream bytes.length = .ok none ∧ bytes.length ≤ cap := by
  rcases loadFileWithCap_cases C fs url cap with ⟨stream, ho⟩ | ⟨size, hlarger, herror⟩ | ⟨hno, -, e, herror, -⟩
  · rw [ho.load_eq hcap]
    constructor
    · intro h
      cases hread : readToEnd stream (cap + 1) 0 with
      | error e =>
        rw [hread] at h
        cases h
      | ok buf =>
        rw [hread] at h
        dsimp only at h
        split at h
        · cases h
        · rename_i hlen
          obtain rfl := Except.ok.inj h
          obtain ⟨hgives, -, hend⟩ := readToEnd_eq_ok_iff.1 hread
          rw [Nat.zero_add] at hend
          exact ⟨stream, ho, hgives, hend.resolve_left (by omega), Nat.le_of_not_lt hlen⟩
    · rintro ⟨stream', ho', hgives, hend, hlen⟩
      obtain rfl := ho.unique ho'
      rw [readToEnd_eq_ok_iff.2 ⟨hgives, Nat.le_succ_of_le hlen, .inr (by rwa [Nat.zero_add])⟩]
      exact if_neg (Nat.not_lt_of_le hlen)
  · rw [herror]
    simp only [reduceCtorEq, false_iff]
    rintro ⟨stream, ho, -⟩
    exact ho.not_reportedLarger hlarger
  · rw [herror]
    simp only [reduceCtorEq, false_iff]
    rintro ⟨stream, ho, -⟩
    exact hno ⟨stream, ho⟩

/-- Too large is what is reported larger, or turns out to be. -/
theorem loadFileWithCap_eq_tooLarge_iff {url : υ} {cap : Nat} (hcap : cap < u64Max) {size max : Nat} :
    loadFileWithCap C fs url cap = .error (.tooLarge size max) ↔ max = cap ∧ (ReportedLarger C fs url cap size ∨
      size = cap + 1 ∧ ∃ stream bytes, Opens C fs url cap stream ∧ Gives stream 0 bytes ∧ bytes.length = cap + 1) := by
  rcases loadFileWithCap_cases C fs url cap with ⟨stream, ho⟩ | ⟨size', hlarger, herror⟩ | ⟨hno, hno', e, herror, hne⟩
  · rw [ho.load_eq hcap]
    constructor
    · intro h
      cases hread : readToEnd stream (cap + 1) 0 with
      | error e =>
        rw [hread] at h
        cases h
      | ok buf =>
        rw [hread] at h
        dsimp only at h
        split at h
        · rename_i hlen
          obtain ⟨rfl, rfl⟩ := NetError.tooLarge.inj (Except.error.inj h)
          obtain ⟨hgives, hle, -⟩ := readToEnd_eq_ok_iff.1 hread
          have hlen' : buf.length = cap + 1 := by omega
          exact ⟨rfl, .inr ⟨hlen', stream, buf, ho, hgives, hlen'⟩⟩
        · cases h
    · rintro ⟨rfl, hlarger | ⟨rfl, stream', bytes, ho', hgives, hlen⟩⟩
      · exact absurd hlarger ho.not_reportedLarger
      · obtain rfl := ho.unique ho'
        rw [readToEnd_eq_ok_iff.2 ⟨hgives, Nat.le_of_eq hlen, .inl hlen⟩]
        dsimp only
        rw [if_pos (by omega), hlen]
  · rw [herror]
    constructor
    · intro h
      obtain ⟨rfl, rfl⟩ := NetError.tooLarge.inj (Except.error.inj h)
      exact ⟨rfl, .inl hlarger⟩
    · rintro ⟨rfl, hlarger' | ⟨-, stream, bytes, ho, -⟩⟩
      · rw [hlarger.unique hlarger']
      · exact absurd hlarger ho.not_reportedLarger
  · rw [herror]
    constructor
    · intro h
      exact absurd (Except.error.inj h) (hne size max)
    · rintro ⟨-, hlarger | ⟨-, stream, bytes, ho, -⟩⟩
      · exact absurd ⟨size, hlarger⟩ hno'
      · exact absurd ⟨stream, ho⟩ hno

/-- Two file systems that differ at most in what is behind a file's first bytes, so many of them. -/
def SameUpTo (n : Nat) (fs fs' : FileSystem ρ) : Prop :=
  fs.metadata = fs'.metadata ∧ ∀ path, (∃ e, fs.openFile path = .error e ∧ fs'.openFile path = .error e) ∨
    ∃ stream stream', fs.openFile path = .ok stream ∧ fs'.openFile path = .ok stream' ∧ ∀ i < n, stream i = stream' i

/-- No more than one byte above the cap is looked at. -/
theorem SameUpTo.loadFileWithCap_eq {fs' : FileSystem ρ} {cap : Nat} (h : SameUpTo (cap + 1) fs fs') (url : υ) :
    loadFileWithCap C fs' url cap = loadFileWithCap C fs url cap := by
  obtain ⟨hmeta, hopen⟩ := h
  unfold loadFileWithCap
  cases hpath : Url.toFilePath C url with
  | none => rfl
  | some path =>
    dsimp only
    rw [← hmeta]
    rcases hopen path with ⟨e, he, he'⟩ | ⟨stream, stream', hs, hs', hsame⟩
    · rw [he, he']
    · have hread : readToEnd stream' (min (cap + 1) u64Max) 0 = readToEnd stream (min (cap + 1) u64Max) 0 := by
        refine readToEnd_congr ?_
        intro i hi
        rw [Nat.zero_add]
        exact (hsame i (by omega)).symm
      simp only [hs, hs', hread]

/-- A file is loaded if it is reported to be no larger than the cap and ends within it, and then all of it is; too large is what
is reported larger, or turns out to be; and no more than one byte above the cap is looked at. -/
theorem loadFileWithCap_exact (C : UrlCrate υ ρ) (fs : FileSystem ρ) (url : υ) {cap : Nat} (hcap : cap < u64Max) :
    (∀ bytes, loadFileWithCap C fs url cap = .ok bytes ↔
      ∃ stream, Opens C fs url cap stream ∧ Gives stream 0 bytes ∧ stream bytes.length = .ok none ∧ bytes.length ≤ cap) ∧
    (∀ size max, loadFileWithCap C fs url cap = .error (.tooLarge size max) ↔ max = cap ∧ (ReportedLarger C fs url cap size ∨
      size = cap + 1 ∧ ∃ stream bytes, Opens C fs url cap stream ∧ Gives stream 0 bytes ∧ bytes.length = cap + 1)) ∧
    ∀ fs', SameUpTo (cap + 1) fs fs' → loadFileWithCap C fs' url cap = loadFileWithCap C fs url cap := by
  refine ⟨fun bytes => ?_, fun size max => ?_, fun fs' h => ?_⟩
  · exact loadFileWithCap_eq_ok_iff hcap
  · exact loadFileWithCap_eq_tooLarge_iff hcap
  · exact h.loadFileWithCap_eq url

/-- URLs that are their paths behind `file://`. -/
def plainUrls : UrlCrate String String where
  parse input := if input.startsWith "file:///" then .ok input else .error "relative URL without a base"
  parseWithBase input _ := if input.startsWith "file:///" then .ok input else .ok ("file:///" ++ input)
  fromFilePath p := if p.startsWith "/" then some ("file://" ++ p) else none
  scheme _ := "file"
  asStr url := url
  hostStr _ := none
  toFilePath url := some ((url.drop 7).toString)
  display p := p

/-- Every file is reported to be empty, and is zeros without an end. -/
def zeros : FileSystem String where
  metadata _ := .ok 0
  openFile _ := .ok fun _ => .ok (some 0)
  canonicalize p := .ok p

/-- A device that is reported to be empty. -/
theorem loadFileWithCap_exact_zeros : loadFileWithCap plainUrls zeros "file:///dev/zero" 2 = .error (.tooLarge 3 2) := by
  have hcap : 2 < u64Max := by decide
  refine ((loadFileWithCap_exact plainUrls zeros "file:///dev/zero" hcap).2.1 3 2).2
    ⟨rfl, .inr ⟨rfl, fun _ => .ok (some 0), [0, 0, 0], ⟨rfl, _, 0, rfl, rfl, Nat.zero_le _, rfl⟩, ?_, rfl⟩⟩
  intro i b h
  match i, h with
  | 0, h | 1, h | 2, h =>
    obtain rfl := Option.some.inj h
    rfl

end Net

end ChromeLight
