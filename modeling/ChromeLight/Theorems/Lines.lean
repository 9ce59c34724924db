import ChromeLight.Inline
import ChromeLight.Lib.Stretches
import Mathlib.Algebra.Ring.Int.Defs

/-!
# The fragments of lines

`buildFragments` makes of each line box one line fragment, over one text fragment for every maximal stretch of runs of one
item. The line fragments are stacked from the top of the content box without gaps, and every run of a line box is in exactly
one text fragment of its line, moved by where the line is (`buildFragments_conserves`).
-/

namespace ChromeLight

open Au (IsI32)

namespace Inline

/-! ## The groups of a line's runs -/

/-- The groups are the maximal stretches of a line's runs that came from one item. -/
def Grouped (line : LineBox) (groups : List RunGroup) : Prop :=
  Stretches.Cuts (·.2) (line.runs.zip line.runItems) (groups.map fun g => (g.item, g.runs.map fun run => (run, g.item)))

/-- The loop over a line's runs, before the run at an index: what is before the start is cut into groups, and from there to the
index there is one item, which is not that of the last group. -/
structure Grouping (line : LineBox) (index : Nat) (s : GroupState) : Prop where
  le : s.start ≤ index
  groups : Stretches.Cuts (·.2) ((line.runs.zip line.runItems).take s.start)
    (s.groups.map fun g => (g.item, g.runs.map fun run => (run, g.item)))
  last : ∀ g ∈ s.groups.getLast?, line.runItems[s.start]? ≠ some g.item
  same : ∀ i, s.start ≤ i → i ≤ index → line.runItems[i]? = line.runItems[s.start]?

variable {line : LineBox} {index : Nat} {s : GroupState}

/-- Before the first run there is no group. -/
theorem Grouping.start (line : LineBox) : Grouping line 0 { groups := [], start := 0 } where
  le := Nat.le_refl 0
  groups := Stretches.Cuts.nil _
  last := by simp
  same i _ hi := by rw [Nat.le_zero.1 hi]

/-- The runs from the start to the index, each beside the item that is there. -/
theorem Grouping.stretch (h : Grouping line index s) (hindex : index < line.runs.length) {item : Nat} (hitem : line.runItems[index]? = some item) :
    ((line.runs.drop s.start).take (index + 1 - s.start)).map (fun run => (run, item)) =
      ((line.runs.zip line.runItems).drop s.start).take (index + 1 - s.start) := by
  refine List.ext_getElem? fun i => ?_
  rw [List.getElem?_map]
  by_cases hi : i < index + 1 - s.start
  · have hsame : line.runItems[s.start + i]? = some item := by
      rw [h.same _ (Nat.le_add_right _ _) (by omega), ← h.same index h.le (Nat.le_refl _), hitem]
    have hrun : line.runs[s.start + i]? = some line.runs[s.start + i] := List.getElem?_eq_getElem (by omega)
    have hzip : (line.runs.zip line.runItems)[s.start + i]? = some (line.runs[s.start + i], item) :=
      List.getElem?_zip_eq_some.2 ⟨hrun, hsame⟩
    rw [List.getElem?_take_of_lt hi, List.getElem?_take_of_lt hi, List.getElem?_drop, List.getElem?_drop, hzip, hrun,
      Option.map_some]
  · rw [List.getElem?_eq_none (by rw [List.length_take]; omega), List.getElem?_eq_none (by rw [List.length_take]; omega),
      Option.map_none]

/-- One round of the loop: a group ends where the next run has another item. -/
theorem Grouping.step (h : Grouping line index s) (hlen : line.runItems.length = line.runs.length)
    (hindex : index < line.runs.length) : Grouping line (index + 1) (groupStep line s index) := by
  obtain ⟨item, hitem⟩ : ∃ item, line.runItems[index]? = some item :=
    ⟨_, List.getElem?_eq_getElem (by omega)⟩
  have hstart : line.runItems[s.start]? = some item := (h.same index h.le (Nat.le_refl _)).symm.trans hitem
  unfold groupStep
  rw [hitem, Option.getD_some]
  by_cases hnext : line.runItems[index + 1]? = some item
  · -- the stretch goes on
    rw [if_neg (not_not.2 hnext)]
    refine ⟨Nat.le_succ_of_le h.le, h.groups, h.last, ?_⟩
    intro i hi hle
    rcases Nat.lt_or_eq_of_le hle with hlt | rfl
    · exact h.same i hi (Nat.le_of_lt_succ hlt)
    · rw [hnext, hstart]
  · rw [if_pos hnext]
    refine ⟨Nat.le_refl _, ?_, ?_, ?_⟩
    · have htake : (line.runs.zip line.runItems).take (index + 1) = (line.runs.zip line.runItems).take s.start ++
          ((line.runs.drop s.start).take (index + 1 - s.start)).map (fun run => (run, item)) := by
        rw [h.stretch hindex hitem, ← List.take_add]
        congr 1
        have := h.le
        omega
      rw [List.map_append, htake]
      refine h.groups.concat ?_ ?_ ?_
      · intro hnil
        have := congrArg List.length hnil
        simp only [List.length_map, List.length_take, List.length_drop, List.length_nil] at this
        have := h.le
        omega
      · intro a ha
        obtain ⟨run, -, rfl⟩ := List.mem_map.1 ha
        rfl
      · intro g hg
        rw [List.getLast?_map] at hg
        obtain ⟨g, hlast, rfl⟩ := Option.map_eq_some_iff.1 hg
        intro heq
        exact h.last g hlast (by rw [hstart]; exact congrArg some heq.symm)
    · intro g hg
      obtain rfl : { item, runs := (line.runs.drop s.start).take (index + 1 - s.start) } = g := by simpa using hg
      exact hnext
    · intro i hi hle
      rw [Nat.le_antisymm hle hi]

/-- The groups of a line are its maximal stretches. -/
theorem grouped_groupRuns (hlen : line.runItems.length = line.runs.length) : Grouped line (groupRuns line) := by
  have key : ∀ n, n ≤ line.runs.length →
      Grouping line n ((List.range n).foldl (groupStep line) { groups := [], start := 0 }) := by
    intro n
    induction n with
    | zero => exact fun _ => Grouping.start line
    | succ n ih =>
      intro hn
      rw [List.range_succ, List.foldl_concat]
      exact (ih (Nat.le_of_succ_le hn)).step hlen hn
  have hend := key line.runs.length (Nat.le_refl _)
  have hstart : ((List.range line.runs.length).foldl (groupStep line) { groups := [], start := 0 }).start =
      line.runs.length := by
    -- past the last run there is no item
    have hnone : line.runItems[line.runs.length]? = none := List.getElem?_eq_none (by omega)
    have := hend.same _ hend.le (Nat.le_refl _)
    rw [hnone] at this
    have hge := List.getElem?_eq_none_iff.1 this.symm
    have := hend.le
    omega
  have hgroups := hend.groups
  rw [hstart, List.take_of_length_le (by rw [List.length_zip]; omega)] at hgroups
  exact hgroups

/-! ## What is appended -/

/-- The run is the other one, moved. -/
structure Moved (dx dy : Int) (run run' : GlyphRun) : Prop where
  x : run'.origin.x.units = run.origin.x.units + dx
  y : run'.origin.y.units = run.origin.y.units + dy
  rest : run' = { run with origin := run'.origin }

/-- The fragment an id names in an arena is so. -/
def Resolves (fragments : List Fragment) (P : Fragment → Prop) (id : FragmentId) : Prop :=
  ∃ f, fragments[id.index]? = some f ∧ P f

/-- The children of a fragment. -/
def childrenOf (fragments : List Fragment) (id : FragmentId) : List FragmentId :=
  (fragments[id.index]?.map (·.children)).getD []

/-- The runs of a fragment. -/
def runsOf : FragmentKind → List GlyphRun
  | .text runs => runs
  | .block | .anonymousBlock | .line => []

/-- The runs of a line's texts. -/
def textRuns (fragments : List Fragment) (id : FragmentId) : List GlyphRun :=
  (fragments[id.index]?.map fun f => runsOf f.kind).getD []

/-- The line boxes of a list, each with its top. -/
def lineTops (top : Int) : List LineBox → List (LineBox × Int)
  | [] => []
  | line :: lines => (line, top) :: lineTops (top + line.height.units) lines

/-- The text fragment of a group of runs of a line with that top. -/
structure IsText (args : InlineArgs) (items : List InlineItem) (line : LineBox) (top : Int) (group : RunGroup)
    (f : Fragment) : Prop where
  runs : ∃ runs, f.kind = .text runs ∧
    List.Forall₂ (Moved args.contentOrigin.x.units (top + line.baseline.units)) group.runs runs
  node : f.node = (itemSource items args.containerStyle group.item).1

/-- The line fragment of a line box with that top, over one text fragment for each group of its runs. -/
structure IsLine (args : InlineArgs) (items : List InlineItem) (fragments : List Fragment) (line : LineBox) (lineTop : Int)
    (f : Fragment) : Prop where
  kind : f.kind = .line
  left : f.borderBox.origin.x = args.contentOrigin.x
  top : f.borderBox.origin.y.units = lineTop
  size : f.borderBox.size = { w := args.contentWidth, h := line.height }
  boxes : f.paddingBox = f.borderBox ∧ f.contentBox = f.borderBox
  texts : List.Forall₂ (fun group => Resolves fragments (IsText args items line lineTop group)) (groupRuns line) f.children

/-- No sum the fragments of a line are placed with leaves the app units, nor does the height so far. -/
def LinesFit (args : InlineArgs) : Int → List LineBox → Prop
  | _, [] => True
  | cursor, line :: lines => IsI32 (args.contentOrigin.y.units + cursor) ∧ IsI32 (cursor + line.height.units) ∧
      (∀ run ∈ line.runs, IsI32 (args.contentOrigin.x.units + run.origin.x.units) ∧
        IsI32 (args.contentOrigin.y.units + cursor + line.baseline.units) ∧
        IsI32 (args.contentOrigin.y.units + cursor + line.baseline.units + run.origin.y.units)) ∧
      LinesFit args (cursor + line.height.units) lines

/-- What resolves does so as fragments are pushed. -/
theorem Resolves.mono {fragments fragments' : List Fragment} {P : Fragment → Prop} {id : FragmentId}
    (h : Resolves fragments P id) (hsub : fragments <+: fragments') : Resolves fragments' P id := by
  obtain ⟨f, hf, hP⟩ := h
  obtain ⟨more, rfl⟩ := hsub
  exact ⟨f, by rw [List.getElem?_append_left (List.getElem?_eq_some_iff.1 hf).1, hf], hP⟩

/-- The children of a fragment that resolves. -/
theorem Resolves.children {fragments : List Fragment} {id : FragmentId} {ids : List FragmentId}
    (h : Resolves fragments (fun f => f.children = ids) id) : childrenOf fragments id = ids := by
  obtain ⟨f, hf, rfl⟩ := h
  rw [childrenOf, hf]
  rfl

/-- A fragment keeps its children when the arena grows. -/
theorem Resolves.childrenOf_mono {fragments fragments' : List Fragment} {P : Fragment → Prop} {id : FragmentId}
    (h : Resolves fragments P id) (hsub : fragments <+: fragments') : childrenOf fragments' id = childrenOf fragments id := by
  obtain ⟨f, hf, -⟩ := h
  have hkept : Resolves fragments (fun g => g.children = childrenOf fragments id) id := ⟨f, hf, by rw [childrenOf, hf]; rfl⟩
  exact (hkept.mono hsub).children

/-- A line stays one as fragments are pushed. -/
theorem IsLine.mono {args : InlineArgs} {items : List InlineItem} {fragments fragments' : List Fragment} {top : Int}
    {f : Fragment} (h : IsLine args items fragments line top f) (hsub : fragments <+: fragments') :
    IsLine args items fragments' line top f :=
  { h with texts := h.texts.imp fun _ _ ht => ht.mono hsub }

/-- A run moved by its line and its container, where no sum saturates. -/
theorem moved_placeRun {origin : Point} {baselineY : Au} {run : GlyphRun} (hx : IsI32 (origin.x.units + run.origin.x.units))
    (hy : IsI32 (baselineY.units + run.origin.y.units)) :
    Moved origin.x.units baselineY.units run (placeRun origin baselineY run) where
  x := hx.units_saturate.trans (Int.add_comm _ _)
  y := hy.units_saturate.trans (Int.add_comm _ _)
  rest := rfl

/-- The runs of a line are the runs of its groups, in order. -/
theorem Grouped.runs {groups : List RunGroup} (h : Grouped line groups) (hlen : line.runItems.length = line.runs.length) :
    groups.flatMap (·.runs) = line.runs := by
  have hflat := congrArg (List.map Prod.fst) h.flatten
  rw [List.map_fst_zip (Nat.le_of_eq hlen.symm), List.map_flatMap, List.flatMap_map] at hflat
  rw [← hflat]
  congr 1
  funext g
  simp [Function.comp_def]

/-- The runs of the text fragments of groups are the runs of the groups, moved. -/
theorem forall₂_textRuns {args : InlineArgs} {items : List InlineItem} {fragments : List Fragment} {top : Int}
    {groups : List RunGroup} {ids : List FragmentId}
    (h : List.Forall₂ (fun group => Resolves fragments (IsText args items line top group)) groups ids) :
    List.Forall₂ (Moved args.contentOrigin.x.units (top + line.baseline.units)) (groups.flatMap (·.runs))
      (ids.flatMap (textRuns fragments)) := by
  induction h with
  | nil => exact .nil
  | @cons group id _ _ hid _ ih =>
    obtain ⟨t, ht, htext⟩ := hid
    obtain ⟨runs, hkind, hmoved⟩ := htext.runs
    have htextRuns : textRuns fragments id = runs := by rw [textRuns, ht, Option.map_some, hkind]; rfl
    rw [List.flatMap_cons, List.flatMap_cons, htextRuns]
    exact List.rel_append hmoved ih

/-- The runs of the text fragments of a line are the line's runs, moved. -/
theorem IsLine.runs {args : InlineArgs} {items : List InlineItem} {fragments : List Fragment} {top : Int} {f : Fragment}
    (h : IsLine args items fragments line top f) (hlen : line.runItems.length = line.runs.length) :
    List.Forall₂ (Moved args.contentOrigin.x.units (top + line.baseline.units)) line.runs
      (f.children.flatMap (textRuns fragments)) := by
  rw [← (grouped_groupRuns hlen).runs hlen]
  exact forall₂_textRuns h.texts

/-- Consecutive ids of an arena. -/
def idsFrom (start n : Nat) : List FragmentId := (List.range' start n).map FragmentId.mk

/-- One id more, in front. -/
theorem idsFrom_succ (start n : Nat) : idsFrom start (n + 1) = ⟨start⟩ :: idsFrom (start + 1) n := by
  rw [idsFrom, List.range'_succ, List.map_cons]
  rfl

/-- Ids one after another. -/
theorem idsFrom_append (start m n : Nat) : idsFrom start (m + n) = idsFrom start m ++ idsFrom (start + m) n := by
  rw [idsFrom, ← List.range'_append_1, List.map_append]
  rfl

section

variable (args : InlineArgs) (items : List InlineItem)

/-- A fragment that is pushed resolves. -/
theorem Arenas.resolves_push (a : Arenas) (style : LayoutStyle) (fragment : StyleId → Fragment) {P : Fragment → Prop}
    (h : P (fragment ⟨a.styles.length⟩)) : Resolves (a.push style fragment).2.fragments P ⟨a.fragments.length⟩ :=
  ⟨_, List.getElem?_concat_length, h⟩

/-- A text fragment has the runs of its group, where they belong. -/
theorem pushText_spec (lineTop : Au) (group : RunGroup) (a : Arenas)
    (hfits : ∀ run ∈ group.runs, IsI32 (args.contentOrigin.x.units + run.origin.x.units) ∧
      IsI32 (lineTop.units + line.baseline.units) ∧ IsI32 (lineTop.units + line.baseline.units + run.origin.y.units)) :
    a.fragments <+: (pushText args items line lineTop group a).2.fragments ∧
      (pushText args items line lineTop group a).2.fragments.length = a.fragments.length + 1 ∧
      (pushText args items line lineTop group a).1 = ⟨a.fragments.length⟩ ∧
      Resolves (pushText args items line lineTop group a).2.fragments (IsText args items line lineTop.units group)
        ⟨a.fragments.length⟩ := by
  refine ⟨List.prefix_append _ _, List.length_append, rfl, Arenas.resolves_push a _ _ ⟨⟨_, rfl, ?_⟩, rfl⟩⟩
  rw [List.forall₂_map_right_iff]
  refine List.forall₂_same.2 ?_
  intro run hrun
  obtain ⟨hx, hbaseline, hy⟩ := hfits run hrun
  have hunits : (lineTop.saturatingAdd line.baseline).units = lineTop.units + line.baseline.units := hbaseline.units_saturate
  rw [← hunits] at hy ⊢
  exact moved_placeRun hx hy

/-- The text fragments of a line have the runs of its groups. -/
theorem pushTexts_spec (lineTop : Au) (groups : List RunGroup) (a : Arenas)
    (hfits : ∀ group ∈ groups, ∀ run ∈ group.runs, IsI32 (args.contentOrigin.x.units + run.origin.x.units) ∧
      IsI32 (lineTop.units + line.baseline.units) ∧ IsI32 (lineTop.units + line.baseline.units + run.origin.y.units)) :
    a.fragments <+: (pushTexts args items line lineTop groups a).2.fragments ∧
      (pushTexts args items line lineTop groups a).2.fragments.length = a.fragments.length + groups.length ∧
      (pushTexts args items line lineTop groups a).1 = idsFrom a.fragments.length groups.length ∧
      List.Forall₂ (fun group => Resolves (pushTexts args items line lineTop groups a).2.fragments
        (IsText args items line lineTop.units group)) groups (pushTexts args items line lineTop groups a).1 := by
  induction groups generalizing a with
  | nil => exact ⟨List.prefix_refl _, rfl, rfl, .nil⟩
  | cons group groups ih =>
    obtain ⟨hsub, hlen, hid, htext⟩ := pushText_spec args items lineTop group a (hfits group List.mem_cons_self)
    obtain ⟨hsub', hlen', hids, htexts⟩ := ih (pushText args items line lineTop group a).2 fun g hg =>
      hfits g (List.mem_cons_of_mem _ hg)
    simp only [pushTexts]
    refine ⟨hsub.trans hsub', ?_, ?_, .cons ?_ htexts⟩
    · rw [hlen', hlen, List.length_cons]
      omega
    · rw [hid, hids, hlen, List.length_cons, idsFrom_succ]
    · rw [hid]
      exact htext.mono hsub'

/-- A line has its texts, and stands where the one before it ends. -/
theorem pushLine_spec (cursorY : Au) (a : Arenas) (hlen : line.runItems.length = line.runs.length)
    (htop : IsI32 (args.contentOrigin.y.units + cursorY.units))
    (hfits : ∀ run ∈ line.runs, IsI32 (args.contentOrigin.x.units + run.origin.x.units) ∧
      IsI32 (args.contentOrigin.y.units + cursorY.units + line.baseline.units) ∧
      IsI32 (args.contentOrigin.y.units + cursorY.units + line.baseline.units + run.origin.y.units)) :
    a.fragments <+: (pushLine args items line cursorY a).2.fragments ∧
      (pushLine args items line cursorY a).2.fragments.length = a.fragments.length + ((groupRuns line).length + 1) ∧
      (pushLine args items line cursorY a).1 = ⟨a.fragments.length + (groupRuns line).length⟩ ∧
      childrenOf (pushLine args items line cursorY a).2.fragments (pushLine args items line cursorY a).1 =
        idsFrom a.fragments.length (groupRuns line).length ∧
      Resolves (pushLine args items line cursorY a).2.fragments (IsLine args items
        (pushLine args items line cursorY a).2.fragments line (args.contentOrigin.y.units + cursorY.units))
        (pushLine args items line cursorY a).1 := by
  have hunits : (args.contentOrigin.y.saturatingAdd cursorY).units = args.contentOrigin.y.units + cursorY.units :=
    htop.units_saturate
  have hgroups : ∀ group ∈ groupRuns line, ∀ run ∈ group.runs, run ∈ line.runs := by
    intro group hgroup run hrun
    rw [← (grouped_groupRuns hlen).runs hlen]
    exact List.mem_flatMap.2 ⟨group, hgroup, hrun⟩
  obtain ⟨hsub, hcount, hids, htexts⟩ := pushTexts_spec args items (args.contentOrigin.y.saturatingAdd cursorY)
    (groupRuns line) a fun group hgroup run hrun => by
      rw [hunits]
      exact hfits run (hgroups group hgroup run hrun)
  rw [hunits] at htexts
  have hid : (pushLine args items line cursorY a).1 = ⟨a.fragments.length + (groupRuns line).length⟩ :=
    congrArg FragmentId.mk hcount
  refine ⟨hsub.trans (List.prefix_append _ _), ?_, hid, ?_, ?_⟩
  · simp only [pushLine, Arenas.push, List.length_append, hcount, List.length_singleton]
    omega
  · exact Resolves.children (Arenas.resolves_push _ _ _ hids)
  · refine Arenas.resolves_push _ _ _ ⟨rfl, rfl, hunits, rfl, ⟨rfl, rfl⟩, ?_⟩
    exact htexts.imp fun _ _ ht => ht.mono (List.prefix_append _ _)

/-- What `buildFragments` has done, from a height on. -/
structure Conserved (cursor : Int) (lines : List LineBox) (a : Arenas) (ids : List FragmentId) (height : Au)
    (a' : Arenas) : Prop where
  kept : a.fragments <+: a'.fragments
  /-- The new fragments are, in order, for each line its text fragments and its line fragment. -/
  pushed : ids.flatMap (fun id => childrenOf a'.fragments id ++ [id]) =
    idsFrom a.fragments.length (a'.fragments.length - a.fragments.length)
  /-- There is one line fragment for each line box, in order, and each begins where the one before it ends. -/
  stacked : List.Forall₂ (fun line => Resolves a'.fragments (IsLine args items a'.fragments line.1 line.2))
    (lineTops (args.contentOrigin.y.units + cursor) lines) ids
  height : height.units = cursor + (lines.map (·.height.units)).sum

/-- The lines of a leaf lose nothing. -/
theorem conserved_buildFragments (lines : List LineBox) (cursorY : Au) (a : Arenas)
    (hitems : ∀ line ∈ lines, line.runItems.length = line.runs.length) (hfits : LinesFit args cursorY.units lines) :
    Conserved args items cursorY.units lines a (buildFragments args items lines cursorY a).1.1
      (buildFragments args items lines cursorY a).1.2 (buildFragments args items lines cursorY a).2 := by
  induction lines generalizing cursorY a with
  | nil => exact ⟨List.prefix_refl _, by simp [buildFragments, idsFrom], .nil, by simp [buildFragments]⟩
  | cons line lines ih =>
    obtain ⟨htop, hnext, hruns, hrest⟩ := hfits
    obtain ⟨hsub, hcount, hid, hchildren, hline⟩ := pushLine_spec args items cursorY a (hitems line List.mem_cons_self)
      htop hruns
    have hcursor : (cursorY.saturatingAdd line.height).units = cursorY.units + line.height.units := hnext.units_saturate
    rw [← hcursor] at hrest
    obtain ⟨hsub', hpushed, hlines, hheight⟩ := ih (cursorY.saturatingAdd line.height)
      (pushLine args items line cursorY a).2 (fun l hl => hitems l (List.mem_cons_of_mem _ hl)) hrest
    rw [hcursor, ← Int.add_assoc] at hlines
    simp only [buildFragments]
    have hchildren' := hline.childrenOf_mono hsub'
    rw [hchildren] at hchildren'
    refine ⟨hsub.trans hsub', ?_, .cons ?_ hlines, ?_⟩
    · have hle := hsub'.length_le
      have hsplit : (buildFragments args items lines (cursorY.saturatingAdd line.height)
          (pushLine args items line cursorY a).2).2.fragments.length - a.fragments.length =
          (groupRuns line).length + 1 + ((buildFragments args items lines (cursorY.saturatingAdd line.height)
            (pushLine args items line cursorY a).2).2.fragments.length -
            (pushLine args items line cursorY a).2.fragments.length) := by
        omega
      rw [List.flatMap_cons, hpushed, hchildren', hid, hsplit, hcount, idsFrom_append _ (_ + 1), idsFrom_append _ _ 1]
      rfl
    · obtain ⟨f, hf, hisLine⟩ := hline.mono hsub'
      exact ⟨f, hf, hisLine.mono hsub'⟩
    · rw [hheight, hcursor, List.map_cons, List.sum_cons, Int.add_assoc]

/-- Below each line fragment are the runs of its line box, moved. -/
theorem forall₂_runs {fragments : List Fragment} {lines : List LineBox} {top : Int} {ids : List FragmentId}
    (h : List.Forall₂ (fun line => Resolves fragments (IsLine args items fragments line.1 line.2)) (lineTops top lines) ids)
    (hitems : ∀ line ∈ lines, line.runItems.length = line.runs.length) :
    List.Forall₂ (fun line id => List.Forall₂ (Moved args.contentOrigin.x.units (line.2 + line.1.baseline.units)) line.1.runs
      ((childrenOf fragments id).flatMap (textRuns fragments))) (lineTops top lines) ids := by
  induction lines generalizing top ids with
  | nil =>
    cases h
    exact .nil
  | cons line lines ih =>
    cases h with
    | cons hid hrest =>
      refine .cons ?_ (ih hrest fun l hl => hitems l (List.mem_cons_of_mem _ hl))
      obtain ⟨f, hf, hline⟩ := hid
      rw [Resolves.children ⟨f, hf, rfl⟩]
      exact hline.runs (hitems line List.mem_cons_self)

/-- `buildFragments` conserves the lines: one line fragment for each line box, stacked from the top of the content box without
gaps, and below each exactly the runs of its line box, in one text fragment for each maximal stretch of runs of one item. -/
theorem buildFragments_conserves (lines : List LineBox) (a : Arenas)
    (hitems : ∀ line ∈ lines, line.runItems.length = line.runs.length) (hfits : LinesFit args 0 lines) :
    ∃ ids height a', buildFragments args items lines .zero a = ((ids, height), a') ∧
      Conserved args items 0 lines a ids height a' ∧
      List.Forall₂ (fun line id =>
        List.Forall₂ (Moved args.contentOrigin.x.units (line.2 + line.1.baseline.units)) line.1.runs
          ((childrenOf a'.fragments id).flatMap (textRuns a'.fragments))) (lineTops args.contentOrigin.y.units lines) ids ∧
      ∀ line ∈ lines, Grouped line (groupRuns line) := by
  have hconserved := conserved_buildFragments args items lines .zero a hitems hfits
  refine ⟨_, _, _, rfl, hconserved, ?_, fun line hline => grouped_groupRuns (hitems line hline)⟩
  have hstacked := hconserved.stacked
  rw [Au.units_zero, Int.add_zero] at hstacked
  exact forall₂_runs args items hstacked hitems

end

/-- A line of three runs, the first two of one item. -/
def threeRuns : LineBox where
  height := .fromPx 20
  baseline := .fromPx 15
  runs := List.replicate 3 { font := ⟨0⟩, size := .fromPx 16, origin := .zero, glyphs := [], color := .black }
  runItems := [0, 0, 1]

/-- Two lines of three runs. -/
theorem buildFragments_conserves_threeRuns : ∃ ids height a', buildFragments
      { children := [], containerStyle := .initial .sample, contentOrigin := .zero, contentWidth := .fromPx 800 } []
      [threeRuns, threeRuns] .zero { fragments := [], styles := [] } = ((ids, height), a') ∧
    Conserved { children := [], containerStyle := .initial .sample, contentOrigin := .zero, contentWidth := .fromPx 800 } [] 0
      [threeRuns, threeRuns] { fragments := [], styles := [] } ids height a' := by
  obtain ⟨ids, height, a', h, hconserved, -⟩ := buildFragments_conserves
    { children := [], containerStyle := .initial .sample, contentOrigin := .zero, contentWidth := .fromPx 800 } []
    [threeRuns, threeRuns] { fragments := [], styles := [] } (by simp [threeRuns])
    ⟨by decide, by decide, by decide, by decide, by decide, by decide, trivial⟩
  exact ⟨ids, height, a', h, hconserved⟩

end Inline

end ChromeLight
