import ChromeLight.Reftest
import ChromeLight.Theorems.Pipeline

/-!
# Reftests

The harness reports what it is for (`run_exact`): it fails only if the directory cannot be read; otherwise every page that is
selected has one outcome, in the order of the names, and the command exits with 0 exactly if each of them renders, next to a
reference that is there, to the very pixels of the reference.
-/

namespace ChromeLight

namespace Reftest

open Gfx (Pixmap PremultipliedColorU8 Canvas)

/-! ## Comparing pixmaps -/

section Comparing

variable {a b : Pixmap}

/-- The red pixels of the diff are the pixels that differ. -/
theorem count_red (xs ys : List PremultipliedColorU8) :
    (xs.zipWith (fun x y => if x = y then white else red) ys).count red = (xs.zip ys).countP fun p => p.1 ≠ p.2 := by
  have hwhite : white ≠ red := by decide
  induction xs generalizing ys with
  | nil => rfl
  | cons x xs ih =>
    cases ys with
    | nil => rfl
    | cons y ys =>
      rw [List.zipWith_cons_cons, List.zip_cons_cons, List.count_cons, List.countP_cons, ih]
      by_cases h : x = y
      · simp [h, hwhite]
      · simp [h]

/-- Lists of one length without a difference are equal. -/
theorem countP_zip_eq_zero_iff {α : Type} [DecidableEq α] {xs ys : List α} (hlength : xs.length = ys.length) :
    ((xs.zip ys).countP fun p => p.1 ≠ p.2) = 0 ↔ xs = ys := by
  induction xs generalizing ys with
  | nil =>
    obtain rfl := List.length_eq_zero_iff.1 hlength.symm
    exact ⟨fun _ => rfl, fun _ => rfl⟩
  | cons x xs ih =>
    cases ys with
    | nil => cases hlength
    | cons y ys =>
      rw [List.zip_cons_cons, List.countP_cons, List.cons.injEq, ← ih (Nat.succ.inj hlength)]
      by_cases h : x = y
      · simp [h]
      · simp [h]

/-- What comparing two pixmaps of one size comes to: the image of the differences, and how many there are. -/
structure Differences (a b diff : Pixmap) (n : Nat) : Prop where
  width : diff.width = a.width
  height : diff.height = a.height
  /-- Each pixel is white where the two agree, and red where they do not. -/
  pixel : ∀ x y, diff.pixel x y = Option.map₂ (fun p q => if p = q then white else red) (a.pixel x y) (b.pixel x y)
  count : diff.pixels.count red = n

/-- The diff of two pictures of one size. -/
theorem diffPixmap_eq (hwidth : a.width = b.width) (hheight : a.height = b.height) (hnonzero : ¬(a.width = 0 ∨ a.height = 0)) :
    ∃ diff, diffPixmap a b = some diff ∧ diff.width = a.width ∧ diff.height = a.height ∧
      diff.pixels = a.pixels.zipWith (fun x y => if x = y then white else red) b.pixels := by
  have hsize : ¬(a.width, a.height) ≠ (b.width, b.height) := by
    rw [hwidth, hheight]
    exact not_not.2 rfl
  unfold diffPixmap
  rw [dif_neg hsize, if_neg hnonzero]
  exact ⟨_, rfl, rfl, rfl, rfl⟩

/-- Two pictures of one size can be compared, and differ nowhere exactly if they are equal. -/
theorem comparePixmaps_eq (hwidth : a.width = b.width) (hheight : a.height = b.height) (hnonzero : ¬(a.width = 0 ∨ a.height = 0)) :
    ∃ diff n, comparePixmaps a b = .ok ⟨n, a.width, a.height⟩ ∧ diffPixmap a b = some diff ∧ Differences a b diff n ∧
      (n = 0 ↔ a = b) := by
  have hsize : ¬(a.width, a.height) ≠ (b.width, b.height) := by
    rw [hwidth, hheight]
    exact not_not.2 rfl
  have hlength : a.pixels.length = b.pixels.length := by rw [a.size, b.size, hwidth, hheight]
  obtain ⟨diff, hdiff, hdiffWidth, hdiffHeight, hpixels⟩ := diffPixmap_eq hwidth hheight hnonzero
  refine ⟨diff, _, if_neg hsize, hdiff, ⟨hdiffWidth, hdiffHeight, ?_, by rw [hpixels, count_red]⟩, ?_⟩
  · intro x y
    unfold Pixmap.pixel
    rw [hdiffWidth, hdiffHeight, hpixels, ← hwidth, ← hheight]
    split
    · rw [List.getElem?_zipWith]
      cases a.pixels[y.toNat * a.width.toNat + x.toNat]? <;> cases b.pixels[y.toNat * a.width.toNat + x.toNat]? <;> rfl
    · rfl
  · rw [countP_zip_eq_zero_iff hlength]
    constructor
    · intro h
      cases a
      cases b
      cases hwidth
      cases hheight
      cases h
      rfl
    · exact congrArg Pixmap.pixels

end Comparing

/-! ## Known failures -/

section Marking

variable {ρ : Type} {host : Host ρ} {path : ρ} {reason : String}

/-- A text in which the reason of a failure is found: what is between the first occurrence of the marker, in a comment or not, and
the first end of a comment after it, without the blanks around. -/
def Marked (text : StrTendril) (reason : String) : Prop :=
  ∃ before body after, text = before ++ "KNOWN-FAIL:".toList ++ (body ++ "-->".toList ++ after) ∧
    ¬"KNOWN-FAIL:".toList <:+: (before ++ "KNOWN-FAIL:".toList).dropLast ∧ ¬"-->".toList <:+: (body ++ "-->".toList).dropLast ∧
    reason.toList = trim body ∧ trim body ≠ []

/-- What the marker of a page says. -/
theorem knownFailMarker_iff :
    knownFailMarker host path = some reason ↔ ∃ text, host.readToString path = some text ∧ Marked text reason := by
  have hmarker : "KNOWN-FAIL:".toList ≠ [] := by decide
  have hend : "-->".toList ≠ [] := by decide
  have hreason : ∀ body : StrTendril, (if trim body = [] then none else some (String.ofList (trim body))) = some reason ↔
      reason.toList = trim body ∧ trim body ≠ [] := by
    intro body
    split
    · rename_i h
      simp [h]
    · rename_i h
      rw [Option.some.injEq, ← String.toList_inj, String.toList_ofList, eq_comm]
      exact ⟨fun he => ⟨he, h⟩, And.left⟩
  have hrest : ∀ before rest : StrTendril,
      (before ++ "KNOWN-FAIL:".toList ++ rest).drop (before.length + "KNOWN-FAIL:".toList.length) = rest := by
    intro before rest
    rw [← List.length_append, List.drop_left]
  have hbody : ∀ body after : StrTendril, (body ++ "-->".toList ++ after).take body.length = body := by
    intro body after
    rw [List.append_assoc, List.take_left]
  unfold knownFailMarker
  simp only [Option.bind_eq_bind, Option.bind_eq_some_iff, hreason, Find.find_eq_some_iff hmarker, Find.find_eq_some_iff hend]
  constructor
  · rintro ⟨text, htext, start, ⟨before, rest, rfl, rfl, hfirst⟩, stop, ⟨body, after, hsplit, rfl, hfirst'⟩, htrim⟩
    rw [hrest] at hsplit htrim
    subst hsplit
    rw [hbody] at htrim
    exact ⟨_, htext, before, body, after, rfl, hfirst, hfirst', htrim⟩
  · rintro ⟨text, htext, before, body, after, rfl, hfirst, hfirst', htrim⟩
    refine ⟨_, htext, _, ⟨before, _, rfl, rfl, hfirst⟩, _, ⟨body, after, hrest _ _, rfl, hfirst'⟩, ?_⟩
    rwa [hrest, hbody]

/-- The status of a pair that fails for a reason. -/
inductive Fails (host : Host ρ) (page : ρ) (reason : String) : PairStatus → Prop where
  | known {text : StrTendril} {marker : String} (htext : host.readToString page = some text) (hmarked : Marked text marker) :
      Fails host page reason (.knownFail (reason ++ ": " ++ marker))
  | unknown (h : ∀ text, host.readToString page = some text → ∀ marker, ¬Marked text marker) :
      Fails host page reason (.fail reason)

/-- A pair that fails is reported as failing, or as known to fail. -/
theorem exists_finish (host : Host ρ) (page : ρ) (name reason : String) :
    ∃ status, finish name (knownFailMarker host page) reason = { name, status } ∧ Fails host page reason status := by
  cases hmarker : knownFailMarker host page with
  | some marker =>
    obtain ⟨text, htext, hmarked⟩ := knownFailMarker_iff.1 hmarker
    exact ⟨_, rfl, .known htext hmarked⟩
  | none =>
    refine ⟨_, rfl, .unknown ?_⟩
    intro text htext marker hmarked
    have := hmarker.symm.trans (knownFailMarker_iff.2 ⟨text, htext, hmarked⟩)
    cases this

end Marking

/-! ## The pages of a directory -/

section Pages

variable {name file : String} {stem ext : StrTendril}

/-- The name of a page. -/
structure PageName (name : String) : Prop where
  nonempty : name.toList ≠ []
  notRef : ¬"-ref".toList <:+ name.toList

/-- A name is split at its last dot, unless it starts with it. -/
theorem splitFileAtDot_append (hext : '.' ∉ ext) : splitFileAtDot (stem ++ '.' :: ext) =
    if stem.reverse = [] then (stem ++ '.' :: ext, none) else (stem, some ext) := by
  have hafter : ∀ c ∈ ext.reverse, decide (c ≠ '.') = true := by
    intro c hc
    simp only [decide_eq_true_eq]
    rintro rfl
    exact hext (List.mem_reverse.1 hc)
  have hspan : (stem ++ '.' :: ext).reverse.span (fun c => decide (c ≠ '.')) = (ext.reverse, '.' :: stem.reverse) := by
    rw [List.span_eq_takeWhile_dropWhile, List.reverse_append, List.reverse_cons, List.append_assoc,
      List.takeWhile_append_of_pos hafter, List.dropWhile_append_of_pos hafter]
    simp
  unfold splitFileAtDot
  rw [hspan]
  simp only [List.reverse_reverse]

/-- A name without a dot is its own stem. -/
theorem splitFileAtDot_of_notMem {l : StrTendril} (h : '.' ∉ l) : splitFileAtDot l = (l, none) := by
  have hspan : l.reverse.dropWhile (fun c => decide (c ≠ '.')) = [] := by
    rw [List.dropWhile_eq_nil_iff]
    intro c hc
    simp only [decide_eq_true_eq]
    rintro rfl
    exact h (List.mem_reverse.1 hc)
  unfold splitFileAtDot
  rw [List.span_eq_takeWhile_dropWhile, hspan]

/-- When a name has a stem and an extension. -/
theorem splitFileAtDot_eq_iff {l : StrTendril} :
    splitFileAtDot l = (stem, some ext) ↔ l = stem ++ '.' :: ext ∧ '.' ∉ ext ∧ stem ≠ [] := by
  constructor
  · intro h
    by_cases hdot : '.' ∈ l
    · obtain ⟨after, before, hl, hafter⟩ := List.eq_append_cons_of_mem (List.mem_reverse.2 hdot)
      have hl' : l = before.reverse ++ '.' :: after.reverse := by
        rw [← List.reverse_reverse l, hl]
        simp
      have hafter' : '.' ∉ after.reverse := fun hc => hafter (List.mem_reverse.1 hc)
      rw [hl', splitFileAtDot_append hafter'] at h
      split at h
      · cases h
      · rename_i hne
        cases h
        exact ⟨hl', hafter', fun hnil => hne (by rw [hnil]; rfl)⟩
    · rw [splitFileAtDot_of_notMem hdot] at h
      cases h
  · rintro ⟨rfl, hext, hstem⟩
    rw [splitFileAtDot_append hext, if_neg (by simpa using hstem)]

/-- Which files are pages. -/
theorem pageStem_eq_some_iff : pageStem file = some name ↔ file = name ++ ".html" ∧ PageName name := by
  have hhtml : '.' ∉ "html".toList := by decide
  have happend : ∀ name : String, (name ++ ".html").toList = name.toList ++ '.' :: "html".toList := fun name => by simp
  unfold pageStem
  constructor
  · rcases hsplit : splitFileAtDot file.toList with ⟨stem, extension⟩
    dsimp only
    split
    · exact nofun
    · rename_i hextension
      rw [not_not.1 hextension] at hsplit
      obtain ⟨hfile, -, hstem⟩ := splitFileAtDot_eq_iff.1 hsplit
      split
      · exact nofun
      · rename_i href
        intro h
        obtain rfl := Option.some.inj h
        have hstem' : (String.ofList stem).toList = stem := String.toList_ofList
        refine ⟨?_, by rwa [hstem'], by rwa [hstem']⟩
        rw [← String.toList_inj, happend, hstem', hfile]
  · rintro ⟨rfl, hname⟩
    rw [happend, splitFileAtDot_eq_iff.2 ⟨rfl, hhtml, hname.nonempty⟩]
    dsimp only
    rw [if_neg (not_not.2 rfl), if_neg hname.notRef, String.ofList_toList]

/-- Reading the names stops at an error, if there is one. -/
theorem collectNames_cases (entries : List (Except String (Option String))) :
    (∃ e, collectNames entries = .error (.io e) ∧ .error e ∈ entries) ∨
      ∃ files : List (Option String), entries = files.map .ok ∧ collectNames entries = .ok (files.filterMap fun file => file.bind pageStem) := by
  induction entries with
  | nil => exact .inr ⟨[], rfl, rfl⟩
  | cons entry entries ih =>
    cases entry with
    | error e => exact .inl ⟨e, rfl, List.mem_cons_self⟩
    | ok file =>
      rcases ih with ⟨e, herror, hmem⟩ | ⟨files, hfiles, hok⟩
      · refine .inl ⟨e, ?_, List.mem_cons_of_mem _ hmem⟩
        rw [collectNames, herror]
        rfl
      · refine .inr ⟨file :: files, by rw [hfiles]; rfl, ?_⟩
        rw [collectNames, hok, List.filterMap_cons]
        cases file.bind pageStem <;> rfl

/-- A name comes up as often as its file does. -/
theorem count_pages (hname : PageName name) (files : List (Option String)) :
    (files.filterMap fun file => file.bind pageStem).count name = files.count (some (name ++ ".html")) := by
  rw [List.count_filterMap, List.count_eq_countP]
  refine List.countP_congr ?_
  intro file _
  rw [beq_iff_eq, beq_iff_eq, Option.bind_eq_some_iff]
  constructor
  · rintro ⟨s, rfl, hs⟩
    rw [(pageStem_eq_some_iff.1 hs).1]
  · rintro rfl
    exact ⟨_, rfl, pageStem_eq_some_iff.2 ⟨rfl, hname⟩⟩

end Pages

/-! ## Pairs -/

section Pairs

variable {υ ρ ε δ : Type} [DecidableEq ε] [DecidableEq δ] {E : Engines υ ρ ε δ}

/-- The page of a name, and its reference. -/
def page (host : Host ρ) (dir : ρ) (name : String) : ρ := host.join dir (name ++ ".html")

/-- The reference of a page. -/
def refPage (host : Host ρ) (dir : ρ) (name : String) : ρ := host.join dir (name ++ "-ref.html")

/-- A page and its reference, which is there, render to the same pixels. -/
def Matches (E : Engines υ ρ ε δ) (host : Host ρ) (dir : ρ) (name : String) : Prop :=
  host.isFile (refPage host dir name) = true ∧ ∃ test reference, E.renderFile (page host dir name) 800 600 = .some (.ok test) ∧
    E.renderFile (refPage host dir name) 800 600 = .some (.ok reference) ∧ test.pixmap = reference.pixmap

/-- The images of a failure. -/
def artifacts (host : Host ρ) (failuresDir : ρ) (name : String) (test reference diff : Pixmap) : List (Artifact ρ) :=
  let dir := host.join failuresDir name
  if host.createDirAll dir then
    [⟨host.join dir "test.png", test⟩, ⟨host.join dir "ref.png", reference⟩, ⟨host.join dir "diff.png", diff⟩]
  else []

/-- What comes of a pair. -/
inductive Pair (E : Engines υ ρ ε δ) (host : Host ρ) (dir failuresDir : ρ) (name : String) :
    PairResult × List (Artifact ρ) → Prop where
  | pass (h : Matches E host dir name) : Pair E host dir failuresDir name ({ name, status := .pass }, [])
  | missingRef {status : PairStatus} (hfile : host.isFile (refPage host dir name) = false)
      (hstatus : Fails host (page host dir name) ("missing ref " ++ E.urls.display (refPage host dir name)) status) :
      Pair E host dir failuresDir name ({ name, status }, [])
  | pageFails {e : ShellError} {status : PairStatus} (hfile : host.isFile (refPage host dir name) = true)
      (htest : E.renderFile (page host dir name) 800 600 = .some (.error e))
      (hstatus : Fails host (page host dir name) ("render " ++ name ++ ".html: " ++ e.message host.debug) status) :
      Pair E host dir failuresDir name ({ name, status }, [])
  | refFails {test : RenderOutput} {e : ShellError} {status : PairStatus} (hfile : host.isFile (refPage host dir name) = true)
      (htest : E.renderFile (page host dir name) 800 600 = .some (.ok test))
      (href : E.renderFile (refPage host dir name) 800 600 = .some (.error e))
      (hstatus : Fails host (page host dir name) ("render " ++ name ++ "-ref.html: " ++ e.message host.debug) status) :
      Pair E host dir failuresDir name ({ name, status }, [])
  | differs {test reference : RenderOutput} {diff : Pixmap} {n : Nat} {status : PairStatus}
      (hfile : host.isFile (refPage host dir name) = true)
      (htest : E.renderFile (page host dir name) 800 600 = .some (.ok test))
      (href : E.renderFile (refPage host dir name) 800 600 = .some (.ok reference))
      (hne : test.pixmap ≠ reference.pixmap) (hdiff : Differences test.pixmap reference.pixmap diff n)
      (hstatus : Fails host (page host dir name) (toString n ++ " differing") status) :
      Pair E host dir failuresDir name ({ name, status }, artifacts host failuresDir name test.pixmap reference.pixmap diff)

variable {host : Host ρ} {dir failuresDir : ρ} {name : String}

/-- A result is of its pair. -/
theorem Pair.name_eq {outcome : PairResult × List (Artifact ρ)} (h : Pair E host dir failuresDir name outcome) :
    outcome.1.name = name := by cases h <;> rfl

/-- A pair passes if the two match, and only then. -/
theorem Pair.isFailure_iff {outcome : PairResult × List (Artifact ρ)} (h : Pair E host dir failuresDir name outcome) :
    outcome.1.isFailure = false ↔ Matches E host dir name := by
  have hfails : ∀ {page : ρ} {reason : String} {status : PairStatus}, Fails host page reason status →
      ({ name, status } : PairResult).isFailure = true := by
    intro page reason status hstatus
    cases hstatus <;> rfl
  cases h with
  | pass h => exact ⟨fun _ => h, fun _ => rfl⟩
  | missingRef hfile hstatus =>
    rw [hfails hstatus]
    refine ⟨nofun, ?_⟩
    rintro ⟨hfile', -⟩
    cases hfile.symm.trans hfile'
  | pageFails hfile htest hstatus =>
    rw [hfails hstatus]
    refine ⟨nofun, ?_⟩
    rintro ⟨-, test, reference, htest', -⟩
    cases Part.some_injective (htest.symm.trans htest')
  | refFails hfile htest href hstatus =>
    rw [hfails hstatus]
    refine ⟨nofun, ?_⟩
    rintro ⟨-, test, reference, -, href', -⟩
    cases Part.some_injective (href.symm.trans href')
  | differs hfile htest href hne hdiff hstatus =>
    rw [hfails hstatus]
    refine ⟨nofun, ?_⟩
    rintro ⟨-, test', reference', htest', href', heq⟩
    obtain rfl := Except.ok.inj (Part.some_injective (htest.symm.trans htest'))
    obtain rfl := Except.ok.inj (Part.some_injective (href.symm.trans href'))
    exact absurd heq hne

/-- A pair has an outcome: the two canvases are never of different sizes. -/
theorem exists_pair (hE : E.Lawful) (host : Host ρ) (dir failuresDir : ρ) (name : String) :
    ∃ outcome, runPair host E dir failuresDir name = .some outcome ∧ Pair E host dir failuresDir name outcome := by
  have hfinish := exists_finish host (page host dir name) name
  unfold runPair
  dsimp only
  rw [show host.join dir (name ++ "-ref.html") = refPage host dir name from rfl,
    show host.join dir (name ++ ".html") = page host dir name from rfl, show viewport = (800, 600) from rfl]
  cases hfile : host.isFile (refPage host dir name) with
  | false =>
    obtain ⟨status, hstatus, hfails⟩ := hfinish ("missing ref " ++ E.urls.display (refPage host dir name))
    exact ⟨_, if_pos rfl, hstatus ▸ .missingRef hfile hfails⟩
  | true =>
    rw [if_neg (by decide)]
    obtain ⟨test, htest⟩ := Engines.exists_renderFile hE (page host dir name) 800 600
    rw [htest, Part.bind_eq_bind, Part.bind_some]
    cases test with
    | error e =>
      obtain ⟨status, hstatus, hfails⟩ := hfinish ("render " ++ name ++ ".html: " ++ e.message host.debug)
      exact ⟨_, rfl, hstatus ▸ .pageFails hfile htest hfails⟩
    | ok test =>
      dsimp only
      obtain ⟨reference, href⟩ := Engines.exists_renderFile hE (refPage host dir name) 800 600
      rw [href, Part.bind_eq_bind, Part.bind_some]
      cases reference with
      | error e =>
        obtain ⟨status, hstatus, hfails⟩ := hfinish ("render " ++ name ++ "-ref.html: " ++ e.message host.debug)
        exact ⟨_, rfl, hstatus ▸ .refFails hfile htest href hfails⟩
      | ok reference =>
        dsimp only
        have ht := Engines.canvas_of_renderFile hE htest
        have hr := Engines.canvas_of_renderFile hE href
        obtain ⟨diff, n, hcompare, hdiff, hdifferences, hzero⟩ := comparePixmaps_eq (ht.width.trans hr.width.symm)
          (ht.height.trans hr.height.symm) (by rw [ht.width, ht.height]; decide)
        rw [hcompare]
        dsimp only
        by_cases hn : n = 0
        · rw [if_pos hn]
          exact ⟨_, rfl, .pass ⟨hfile, test, reference, htest, href, hzero.1 hn⟩⟩
        · rw [if_neg hn]
          obtain ⟨status, hstatus, hfails⟩ := hfinish (toString n ++ " differing")
          have hartifacts : writeFailureArtifacts host failuresDir name test.pixmap reference.pixmap =
              artifacts host failuresDir name test.pixmap reference.pixmap diff := by
            unfold writeFailureArtifacts
            rw [hdiff]
            rfl
          exact ⟨_, rfl, hstatus ▸ hartifacts ▸ .differs hfile htest href (mt hzero.2 hn) hdifferences hfails⟩

/-! ## Running -/

/-- A name with the filter in it, if there is one. -/
def Selected (filter : Option String) (name : String) : Prop := ∀ f ∈ filter, f.toList <:+: name.toList

/-- Which names the filter selects. -/
theorem selected_eq_true_iff {filter : Option String} : selected filter name = true ↔ Selected filter name := by
  cases filter <;> simp [selected, Selected]

/-- The outcomes of the pages that are selected among the files of a directory. -/
structure Suite (E : Engines υ ρ ε δ) (host : Host ρ) (dir : ρ) (filter : Option String) (failuresDir : ρ)
    (files : List (Option String)) (outcomes : List (PairResult × List (Artifact ρ))) : Prop where
  sorted : (outcomes.map fun outcome => outcome.1.name).Pairwise (· ≤ ·)
  /-- Each page comes up once. -/
  once : ∀ name, PageName name → Selected filter name →
    (outcomes.map fun outcome => outcome.1.name).count name = files.count (some (name ++ ".html"))
  pair : ∀ outcome ∈ outcomes, PageName outcome.1.name ∧ Selected filter outcome.1.name ∧
    Pair E host dir failuresDir outcome.1.name outcome
  /-- The command succeeds if every page matches its reference, and only then. -/
  exit : (report (outcomes.map Prod.fst)).2 = 0 ↔
    ∀ name, PageName name → Selected filter name → some (name ++ ".html") ∈ files → Matches E host dir name

/-- A list of calls that all return returns. -/
theorem exists_mapM {α β : Type} {f : α → Part β} {R : α → β → Prop} (h : ∀ a, ∃ b, f a = .some b ∧ R a b) (xs : List α) :
    ∃ ys, xs.mapM f = .some ys ∧ List.Forall₂ R xs ys := by
  induction xs with
  | nil => exact ⟨[], rfl, .nil⟩
  | cons x xs ih =>
    obtain ⟨y, hy, hxy⟩ := h x
    obtain ⟨ys, hys, hxs⟩ := ih
    refine ⟨y :: ys, ?_, .cons hxy hxs⟩
    rw [List.mapM_cons, hy, Part.bind_eq_bind, Part.bind_some, hys, Part.bind_eq_bind, Part.bind_some]
    rfl

/-- Every result is of one of the inputs. -/
theorem exists_of_forall₂ {α β : Type} {R : α → β → Prop} {xs : List α} {ys : List β} (h : List.Forall₂ R xs ys) {y : β}
    (hy : y ∈ ys) : ∃ x ∈ xs, R x y := by
  induction h with
  | nil => cases hy
  | cons hxy _ ih =>
    rcases List.mem_cons.1 hy with rfl | hy
    · exact ⟨_, List.mem_cons_self, hxy⟩
    · obtain ⟨x, hx, hR⟩ := ih hy
      exact ⟨x, List.mem_cons_of_mem _ hx, hR⟩

/-- There is one result for each name, in order. -/
theorem names_of_pairs {names : List String} {outcomes : List (PairResult × List (Artifact ρ))}
    (h : List.Forall₂ (Pair E host dir failuresDir) names outcomes) : (outcomes.map fun outcome => outcome.1.name) = names := by
  induction h with
  | nil => rfl
  | cons hpair _ ih => rw [List.map_cons, hpair.name_eq, ih]

/-- The exit code is zero exactly if no result is a failure. -/
theorem report_eq_zero_iff {results : List PairResult} : (report results).2 = 0 ↔ ∀ result ∈ results, result.isFailure = false := by
  unfold report
  dsimp only
  split
  · rename_i h
    simp only [List.any_eq_true] at h
    obtain ⟨result, hresult, hfails⟩ := h
    refine ⟨nofun, fun hall => ?_⟩
    rw [hall result hresult] at hfails
    cases hfails
  · rename_i h
    simp only [List.any_eq_true, not_exists, not_and, Bool.not_eq_true] at h
    exact ⟨fun _ => h, fun _ => rfl⟩

/-- Discovery fails with an error of the directory, or finds the pages, sorted. -/
theorem discover_cases (host : Host ρ) (dir : ρ) :
    (∃ e, discover host dir = .error (.io e) ∧
      (host.readDir dir = .error e ∨ ∃ entries, host.readDir dir = .ok entries ∧ .error e ∈ entries)) ∨
      ∃ files : List (Option String), ∃ names : List String, host.readDir dir = .ok (files.map .ok) ∧
        discover host dir = .ok names ∧ names.Pairwise (· ≤ ·) ∧
        names.Perm (files.filterMap fun file => file.bind pageStem) := by
  unfold discover
  cases hentries : host.readDir dir with
  | error e => exact .inl ⟨e, rfl, .inl rfl⟩
  | ok entries =>
    rcases collectNames_cases entries with ⟨e, herror, hmem⟩ | ⟨files, rfl, hok⟩
    · exact .inl ⟨e, by dsimp only; rw [herror]; rfl, .inr ⟨entries, rfl, hmem⟩⟩
    · refine .inr ⟨files, _, rfl, by dsimp only; rw [hok]; rfl, ?_, List.mergeSort_perm _ _⟩
      refine (List.pairwise_mergeSort ?_ ?_ _).imp fun h => of_decide_eq_true h
      · intro a b c hab hbc
        exact decide_eq_true ((of_decide_eq_true hab).trans (of_decide_eq_true hbc))
      · intro a b
        simpa using le_total a b

/-- The harness fails only when the directory cannot be read; otherwise its outcomes are those of the selected pages. -/
theorem run_exact (hE : E.Lawful) (host : Host ρ) (dir : ρ) (filter : Option String) (failuresDir : ρ) :
    (∃ e, run host E dir filter failuresDir = .some (.error (.io e)) ∧
      (host.readDir dir = .error e ∨ ∃ entries, host.readDir dir = .ok entries ∧ .error e ∈ entries)) ∨
      ∃ files outcomes, host.readDir dir = .ok (files.map .ok) ∧ run host E dir filter failuresDir = .some (.ok outcomes) ∧
        Suite E host dir filter failuresDir files outcomes := by
  unfold run
  rcases discover_cases host dir with ⟨e, herror, hdir⟩ | ⟨files, names, hdir, hok, hsorted, hperm⟩
  · exact .inl ⟨e, by rw [herror], hdir⟩
  · obtain ⟨outcomes, houtcomes, hpairs⟩ := exists_mapM (exists_pair hE host dir failuresDir) (names.filter (selected filter))
    have hnames := names_of_pairs hpairs
    have hcount : ∀ name, PageName name → Selected filter name →
        (names.filter (selected filter)).count name = files.count (some (name ++ ".html")) := by
      intro name hname hselected
      rw [List.count_filter (selected_eq_true_iff.2 hselected), hperm.count_eq, count_pages hname]
    have hpair : ∀ outcome ∈ outcomes, PageName outcome.1.name ∧ Selected filter outcome.1.name ∧
        Pair E host dir failuresDir outcome.1.name outcome := by
      intro outcome houtcome
      obtain ⟨name, hname, hpair⟩ := exists_of_forall₂ hpairs houtcome
      obtain ⟨hmem, hselected⟩ := List.mem_filter.1 hname
      obtain ⟨file, -, hfile⟩ := List.mem_filterMap.1 (hperm.mem_iff.1 hmem)
      obtain ⟨s, -, hstem⟩ := Option.bind_eq_some_iff.1 hfile
      rw [hpair.name_eq]
      exact ⟨(pageStem_eq_some_iff.1 hstem).2, selected_eq_true_iff.1 hselected, hpair⟩
    refine .inr ⟨files, outcomes, hdir, ?_, ?_, ?_, hpair, ?_⟩
    · rw [hok]
      dsimp only
      rw [houtcomes, Part.bind_eq_bind, Part.bind_some]
      rfl
    · rw [hnames]
      exact hsorted.filter _
    · rw [hnames]
      exact hcount
    · rw [report_eq_zero_iff]
      constructor
      · intro hall name hname hselected hfile
        have hmem : name ∈ outcomes.map fun outcome => outcome.1.name := by
          rw [hnames, ← List.count_pos_iff, hcount name hname hselected]
          exact List.count_pos_iff.2 hfile
        obtain ⟨outcome, houtcome, rfl⟩ := List.mem_map.1 hmem
        exact (hpair outcome houtcome).2.2.isFailure_iff.1 (hall _ (List.mem_map_of_mem houtcome))
      · intro hall result hresult
        obtain ⟨outcome, houtcome, rfl⟩ := List.mem_map.1 hresult
        obtain ⟨hname, hselected, hpaired⟩ := hpair outcome houtcome
        refine hpaired.isFailure_iff.2 (hall _ hname hselected ?_)
        rw [← List.count_pos_iff, ← hcount _ hname hselected, ← hnames, List.count_pos_iff]
        exact List.mem_map_of_mem houtcome

end Pairs

/-- A directory with a page and its reference, and a page that has none and says so. -/
def Host.sample : Host String where
  join dir name := dir ++ "/" ++ name
  isFile path := path ≠ "ref/b-ref.html"
  readToString path := if path = "ref/b.html" then some "<!-- KNOWN-FAIL: no reference -->".toList else some "<div>x".toList
  readDir _ := .ok [.ok (some "b.html"), .ok (some "a-ref.html"), .ok (some "a.html")]
  createDirAll _ := true
  debug s := "\"" ++ s ++ "\""

/-- The sample file is the sample page. -/
theorem renderFile_sample (path : String) (width height : UInt32) : Engines.sample.renderFile path width height =
    Engines.sample.renderBytes Engines.letterPage "file:///letter.html" width height := by
  have hbytes : Net.loadFile Engines.sample.urls Engines.sample.files "file:///letter.html" = .ok Engines.letterPage := by
    decide +kernel
  unfold Engines.renderFile
  rw [show Engines.sample.files.canonicalize path = .ok "/letter.html" from rfl]
  dsimp only
  rw [show Net.Url.fromFilePath Engines.sample.urls "/letter.html" = .ok "file:///letter.html" by decide +kernel]
  dsimp only
  rw [hbytes]

/-- The page is rendered in the viewport of the harness. -/
theorem exists_renderBytes : ∃ output,
    Engines.sample.renderBytes Engines.letterPage "file:///letter.html" 800 600 = .some (.ok output) := by
  have hfonts : Gfx.Resolves (Fonts.twoFaces.rasterDb Engines.sample.parses) (Engines.letterList (viewportOf 800 600)).items := by
    intro run hrun
    simp only [Engines.letterList, List.mem_cons, DisplayItem.text.injEq, reduceCtorEq, false_or, or_false, List.not_mem_nil] at hrun
    rw [hrun]
    exact ⟨_, rfl, rfl⟩
  have hvalid : validate (Engines.letterList (viewportOf 800 600)) (Gfx.canvasBounds 800 600) = .ok () := by decide +kernel
  rcases Gfx.rasterizeWithStats_cases hfonts Engines.sample.raster (800 : UInt32).toNat (600 : UInt32).toNat with
    ⟨hsize, -⟩ | ⟨-, ⟨e, hinvalid, -⟩ | ⟨-, draws, stats, -, hraster⟩⟩
  · exact absurd hsize (by decide)
  · cases hvalid.symm.trans hinvalid
  · obtain ⟨warnings, hrender⟩ := Engines.renderBytes_of_letterList (List.mem_cons_of_mem _ List.mem_cons_self) (by decide) hraster
    exact ⟨_, hrender⟩

/-- The first page passes, and the second is known to fail. -/
theorem run_exact_letterPage : ∃ outcomes, run .sample Engines.sample "ref" none "failures" = .some (.ok outcomes) ∧
    Suite Engines.sample .sample "ref" none "failures" [some "b.html", some "a-ref.html", some "a.html"] outcomes ∧
    (∃ outcome ∈ outcomes, outcome.1.line = "PASS a") ∧
    (∃ outcome ∈ outcomes, outcome.1.line = "FAIL (known) b (missing ref ref/b-ref.html: no reference)") ∧
    (report (outcomes.map Prod.fst)).2 ≠ 0 := by
  rcases run_exact Engines.lawful_sample .sample "ref" none "failures" with
    ⟨e, -, hdir | ⟨entries, hdir, herror⟩⟩ | ⟨files, outcomes, hdir, hrun, hsuite⟩
  · cases hdir
  · obtain rfl := Except.ok.inj hdir
    simp at herror
  obtain rfl : files = [some "b.html", some "a-ref.html", some "a.html"] :=
    (List.map_injective_iff.2 fun _ _ => Except.ok.inj) (Except.ok.inj hdir).symm
  have hpage : ∀ name, PageName name → some (name ++ ".html") ∈ [some "b.html", some "a-ref.html", some "a.html"] →
      ∃ outcome ∈ outcomes, outcome.1.name = name ∧ Pair Engines.sample .sample "ref" "failures" name outcome := by
    intro name hname hfile
    have hmem : name ∈ outcomes.map fun outcome => outcome.1.name := by
      rw [← List.count_pos_iff, hsuite.once name hname nofun]
      exact List.count_pos_iff.2 hfile
    obtain ⟨outcome, houtcome, rfl⟩ := List.mem_map.1 hmem
    exact ⟨outcome, houtcome, rfl, (hsuite.pair outcome houtcome).2.2⟩
  obtain ⟨output, houtput⟩ := exists_renderBytes
  obtain ⟨a, ha, haname, hapair⟩ := hpage "a" ⟨by decide, by decide⟩ (by decide)
  obtain ⟨b, hb, hbname, hbpair⟩ := hpage "b" ⟨by decide, by decide⟩ (by decide)
  refine ⟨outcomes, hrun, hsuite, ⟨a, ha, ?_⟩, ⟨b, hb, ?_⟩, ?_⟩
  · have hpass := hapair.isFailure_iff.2 ⟨rfl, output, output, (renderFile_sample _ _ _).trans houtput,
      (renderFile_sample _ _ _).trans houtput, rfl⟩
    cases hapair with
    | pass => rfl
    | missingRef _ hstatus => cases hstatus <;> cases hpass
    | pageFails _ _ hstatus => cases hstatus <;> cases hpass
    | refFails _ _ _ hstatus => cases hstatus <;> cases hpass
    | differs _ _ _ _ _ hstatus => cases hstatus <;> cases hpass
  · have hfile : Host.sample.isFile (refPage .sample "ref" "b") = false := by decide +kernel
    have hmarker : knownFailMarker .sample (page .sample "ref" "b") = some "no reference" := by decide +kernel
    cases hbpair with
    | missingRef _ hstatus =>
      cases hstatus with
      | known htext hmarked =>
        obtain rfl := Option.some.inj ((knownFailMarker_iff.2 ⟨_, htext, hmarked⟩).symm.trans hmarker)
        rfl
      | unknown h =>
        obtain ⟨text, htext, hmarked⟩ := knownFailMarker_iff.1 hmarker
        exact absurd hmarked (h text htext _)
    | pass h => cases hfile.symm.trans h.1
    | pageFails hfile' => cases hfile.symm.trans hfile'
    | refFails hfile' => cases hfile.symm.trans hfile'
    | differs hfile' => cases hfile.symm.trans hfile'
  · intro hzero
    obtain ⟨hfile, -⟩ := hsuite.exit.1 hzero "b" ⟨by decide, by decide⟩ nofun (by decide)
    cases hfile.symm.trans (show Host.sample.isFile (refPage .sample "ref" "b") = false by decide +kernel)

end Reftest

end ChromeLight
