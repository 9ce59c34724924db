import ChromeLight.Lib.Stretches
import ChromeLight.Text
import Mathlib.Data.List.ModifyLast

/-!
# The text shaper loses nothing

`buildRuns` keeps every glyph of a line's clusters, in order, and every run is of the font, size, color and item of all clusters
it holds glyphs of (`buildRuns_conserves`), so the line boxes of the text shaper have an item for each run. The spans
of `concatenate` say for each byte of the shaping string which item it came from, and the binary search over them finds what a
scan finds (`concatenate_spans`).
-/

namespace ChromeLight

namespace Text

/-! ## Clusters into runs -/

/-- The glyphs of a cluster. -/
def clusterGlyphIds (c : ClusterRecord) : List UInt16 := c.glyphs.map (·.id)

/-- The glyphs of a run. -/
def runGlyphIds (run : GlyphRun) : List UInt16 := run.glyphs.map (·.id)

/-- The run with that item holds exactly the glyphs of the clusters, and is of the font, size, color and item of each. -/
structure HoldsClusters (clusters : List ClusterRecord) (run : GlyphRun) (item : Nat) : Prop where
  glyphs : runGlyphIds run = clusters.flatMap clusterGlyphIds
  uniform : ∀ c ∈ clusters, c.font = run.font ∧ c.size = run.size ∧ c.color = run.color
  item : ∀ c ∈ clusters, c.item.getD usizeMax = item

/-- The loop over the clusters: the runs so far hold the maximal stretches of clusters with one key. -/
structure Building (clusters : List ClusterRecord) (s : RunState) (groups : List (RunKey × List ClusterRecord)) : Prop where
  cut : Stretches.Cuts ClusterRecord.key clusters groups
  current : s.current = groups.getLast?.map (·.1)
  runs : List.Forall₂ (fun group run => (run.font, run.size, run.color) = (group.1.1, group.1.2.1, group.1.2.2.1) ∧
    runGlyphIds run = group.2.flatMap clusterGlyphIds) groups s.runs
  items : s.runItems = groups.map fun group => group.1.2.2.2.getD usizeMax

variable (O : F32Ops)

/-- Placing glyphs keeps them. -/
theorem map_id_placeGlyphs (runStartX glyphX : F32) (glyphs : List RawGlyph) :
    (placeGlyphs O runStartX glyphX glyphs).map (·.id) = glyphs.map (·.id) := by
  induction glyphs generalizing glyphX with
  | nil => rfl
  | cons glyph glyphs ih => simp only [placeGlyphs, List.map_cons, ih]

/-- What corresponds to a list with one more entry has one more entry. -/
theorem forall₂_concat {α β : Type} {R : α → β → Prop} {l : List α} {a : α} {m : List β} (h : List.Forall₂ R (l ++ [a]) m) :
    ∃ m' b, List.Forall₂ R l m' ∧ R a b ∧ m = m' ++ [b] := by
  induction l generalizing m with
  | nil =>
    cases h with
    | cons hab hnil =>
      cases hnil
      exact ⟨[], _, .nil, hab, rfl⟩
  | cons x l ih =>
    cases h with
    | cons hx hrest =>
      obtain ⟨m', b, hm', hab, rfl⟩ := ih hrest
      exact ⟨_ :: m', b, .cons hx hm', hab, rfl⟩

/-- One cluster more: it begins a run where its key is another one, and its glyphs end the last run. -/
theorem Building.step {clusters : List ClusterRecord} {s : RunState} {groups : List (RunKey × List ClusterRecord)}
    (h : Building clusters s groups) (c : ClusterRecord) :
    ∃ groups', Building (clusters ++ [c]) (runStep O s c) groups' := by
  by_cases hkey : s.current = some c.key
  · -- the last run goes on
    have hbegin : beginRun O s c = s := by
      unfold beginRun
      rw [if_neg (not_not.2 hkey)]
    rw [h.current] at hkey
    obtain ⟨⟨k, stretch⟩, hlast, rfl⟩ := Option.map_eq_some_iff.1 hkey
    obtain ⟨groups, rfl⟩ := List.getLast?_eq_some_iff.1 hlast
    obtain ⟨rest, run, hrest, ⟨hrun, hglyphs⟩, hruns⟩ := forall₂_concat h.runs
    refine ⟨groups ++ [(c.key, stretch ++ [c])], h.cut.extend rfl, ?_, ?_, ?_⟩
    · simp only [runStep, hbegin, h.current, List.getLast?_concat, Option.map_some]
    · simp only [runStep, hbegin, hruns, List.modifyLast_concat]
      refine List.rel_append hrest (.cons ⟨hrun, ?_⟩ .nil)
      simp only [runGlyphIds, List.map_append, map_id_placeGlyphs, List.flatMap_append, List.flatMap_singleton] at hglyphs ⊢
      rw [hglyphs, clusterGlyphIds]
    · simp only [runStep, hbegin, h.items, List.map_append, List.map_cons, List.map_nil]
  · refine ⟨groups ++ [(c.key, [c])], h.cut.concat (by simp) (by simp) ?_, ?_, ?_, ?_⟩
    · intro g hg heq
      rw [h.current, hg, Option.map_some, heq] at hkey
      exact hkey rfl
    · simp only [runStep, beginRun, if_pos (show s.current ≠ some c.key from hkey), List.getLast?_concat, Option.map_some]
    · simp only [runStep, beginRun, if_pos (show s.current ≠ some c.key from hkey), List.modifyLast_concat]
      refine List.rel_append h.runs (.cons ⟨rfl, ?_⟩ .nil)
      simp only [runGlyphIds, List.nil_append, map_id_placeGlyphs, List.flatMap_singleton, clusterGlyphIds]
    · simp only [runStep, beginRun, if_pos (show s.current ≠ some c.key from hkey), h.items, List.map_append, List.map_cons,
        List.map_nil]
      rfl

/-- The runs of the loop hold the maximal stretches of clusters with one key. -/
theorem building_foldl (clusters : List ClusterRecord) (lineX : F32) : ∃ groups, Building clusters
    (clusters.foldl (runStep O) { runs := [], runItems := [], current := none, runStartX := lineX, penX := lineX })
    groups := by
  induction clusters using List.reverseRecOn with
  | nil => exact ⟨[], Stretches.Cuts.nil _, rfl, .nil, rfl⟩
  | append_singleton clusters c ih =>
    obtain ⟨groups, h⟩ := ih
    rw [List.foldl_concat]
    exact h.step O c

/-- Beside each run is the item of its stretch. -/
theorem Building.zip {clusters : List ClusterRecord} {s : RunState} {groups : List (RunKey × List ClusterRecord)}
    (h : Building clusters s groups) :
    List.Forall₂ (fun group entry => HoldsClusters group.2 entry.1 entry.2) groups (s.runs.zip s.runItems) := by
  have key : ∀ {groups : List (RunKey × List ClusterRecord)} {runs : List GlyphRun},
      List.Forall₂ (fun group run => (run.font, run.size, run.color) = (group.1.1, group.1.2.1, group.1.2.2.1) ∧
        runGlyphIds run = group.2.flatMap clusterGlyphIds) groups runs →
      (∀ group ∈ groups, ∀ c ∈ group.2, c.key = group.1) →
      List.Forall₂ (fun group entry => HoldsClusters group.2 entry.1 entry.2) groups
        (runs.zip (groups.map fun group => group.1.2.2.2.getD usizeMax)) := by
    intro groups runs hruns
    induction hruns with
    | nil => exact fun _ => .nil
    | @cons group run groups runs hrun _ ih =>
      intro huniform
      refine .cons ⟨hrun.2, ?_, ?_⟩ (ih fun g hg => huniform g (List.mem_cons_of_mem _ hg))
      · intro c hc
        have hkey := huniform group List.mem_cons_self c hc
        obtain ⟨hfont, hsize, hcolor⟩ := Prod.mk.inj hrun.1 |>.imp_right Prod.mk.inj
        rw [hfont, hsize, hcolor, ← hkey]
        exact ⟨rfl, rfl, rfl⟩
      · intro c hc
        exact congrArg (fun key : RunKey => key.2.2.2.getD usizeMax) (huniform group List.mem_cons_self c hc)
  rw [h.items]
  exact key h.runs h.cut.uniform

/-- A run without a glyph holds clusters without one. -/
theorem HoldsClusters.isEmpty_iff {clusters : List ClusterRecord} {run : GlyphRun} {item : Nat}
    (h : HoldsClusters clusters run item) :
    (clusters.filter fun c => !c.glyphs.isEmpty) = [] ↔ run.glyphs = [] := by
  have hids : run.glyphs = [] ↔ runGlyphIds run = [] := by rw [runGlyphIds, List.map_eq_nil_iff]
  rw [hids, h.glyphs, List.filter_eq_nil_iff, List.flatMap_eq_nil_iff]
  simp [clusterGlyphIds]

/-- Clusters without a glyph do not count. -/
theorem flatMap_filter_glyphs (clusters : List ClusterRecord) :
    (clusters.filter fun c => !c.glyphs.isEmpty).flatMap clusterGlyphIds = clusters.flatMap clusterGlyphIds := by
  induction clusters with
  | nil => rfl
  | cons c clusters ih =>
    by_cases hc : c.glyphs = []
    · rw [List.filter_cons_of_neg (by simp [hc]), List.flatMap_cons, ih, clusterGlyphIds, hc]
      rfl
    · rw [List.filter_cons_of_pos (by simpa using hc), List.flatMap_cons, List.flatMap_cons, ih]

/-- Clusters without glyphs leave nothing in a run. -/
theorem HoldsClusters.filter {clusters : List ClusterRecord} {run : GlyphRun} {item : Nat}
    (h : HoldsClusters clusters run item) : HoldsClusters (clusters.filter fun c => !c.glyphs.isEmpty) run item where
  glyphs := by rw [h.glyphs, flatMap_filter_glyphs]
  uniform c hc := h.uniform c (List.mem_of_mem_filter hc)
  item c hc := h.item c (List.mem_of_mem_filter hc)

/-- The glyphs of all runs are those of all their clusters. -/
theorem flatMap_runGlyphIds {stretches : List (List ClusterRecord)} {entries : List (GlyphRun × Nat)}
    (h : List.Forall₂ (fun stretch entry => HoldsClusters stretch entry.1 entry.2) stretches entries) :
    (entries.map (·.1)).flatMap runGlyphIds = stretches.flatten.flatMap clusterGlyphIds := by
  induction h with
  | nil => rfl
  | cons hholds _ ih =>
    rw [List.map_cons, List.flatMap_cons, ih, hholds.glyphs, List.flatten_cons, List.flatMap_append]

/-- There is one item for each run. -/
theorem length_buildRuns (clusters : List ClusterRecord) (lineX : F32) :
    (buildRuns O clusters lineX).2.length = (buildRuns O clusters lineX).1.length := by
  simp only [buildRuns, List.unzip_eq_map, List.length_map]

/-- `buildRuns` conserves the glyphs: the runs hold the glyphs of the clusters, in order, each the ones of a stretch of clusters
of its own font, size, color and item, and there is an item for each run. -/
theorem buildRuns_conserves (clusters : List ClusterRecord) (lineX : F32) :
    (buildRuns O clusters lineX).1.flatMap runGlyphIds = clusters.flatMap clusterGlyphIds ∧
      (∀ run ∈ (buildRuns O clusters lineX).1, run.glyphs ≠ []) ∧
      (buildRuns O clusters lineX).2.length = (buildRuns O clusters lineX).1.length ∧
      ∃ stretches : List (List ClusterRecord), stretches.flatten = clusters.filter (fun c => !c.glyphs.isEmpty) ∧
        List.Forall₂ (fun stretch entry => HoldsClusters stretch entry.1 entry.2) stretches
          ((buildRuns O clusters lineX).1.zip (buildRuns O clusters lineX).2) := by
  obtain ⟨groups, h⟩ := building_foldl O clusters lineX
  have hzip := h.zip
  have hlength := length_buildRuns O clusters lineX
  unfold buildRuns at hlength ⊢
  dsimp only at hlength ⊢
  generalize clusters.foldl (runStep O) _ = s at h hzip hlength
  -- the stretches that have a glyph are those of the runs that are kept
  have hkept : List.Forall₂ (fun stretch entry => HoldsClusters stretch entry.1 entry.2)
      ((groups.map fun group => group.2.filter fun c => !c.glyphs.isEmpty).filter fun stretch => !stretch.isEmpty)
      ((s.runs.zip s.runItems).filter fun entry => !entry.1.glyphs.isEmpty) := by
    have hfiltered : List.Forall₂ (fun stretch entry => HoldsClusters stretch entry.1 entry.2 ∧
        (stretch = [] ↔ entry.1.glyphs = [])) (groups.map fun group => group.2.filter fun c => !c.glyphs.isEmpty)
        (s.runs.zip s.runItems) := by
      rw [List.forall₂_map_left_iff]
      exact hzip.imp fun _ _ hholds => ⟨hholds.filter, hholds.isEmpty_iff⟩
    refine (List.rel_filter ?_ hfiltered).imp fun _ _ hholds => hholds.1
    intro stretch entry hholds
    simp only [Bool.not_eq_true', List.isEmpty_eq_false_iff, ne_eq, hholds.2]
  have hflatten : ((groups.map fun group => group.2.filter fun c => !c.glyphs.isEmpty).filter
      fun stretch => !stretch.isEmpty).flatten = clusters.filter fun c => !c.glyphs.isEmpty := by
    rw [List.flatten_filter_not_isEmpty, ← h.cut.flatten, List.filter_flatMap, List.flatMap_def]
  refine ⟨?_, ?_, hlength, _, hflatten, ?_⟩
  · rw [List.unzip_eq_map, flatMap_runGlyphIds hkept, hflatten, flatMap_filter_glyphs]
  · intro run hrun
    rw [List.unzip_eq_map] at hrun
    obtain ⟨entry, hentry, rfl⟩ := List.mem_map.1 hrun
    simpa using (List.mem_filter.1 hentry).2
  · rw [List.zip_unzip]
    exact hkept

/-! ## Spans of the shaping string -/

/-- The bytes of a text. -/
def utf8 (text : StrTendril) : List UInt8 := text.flatMap String.utf8EncodeChar

/-- The bytes an item contributes to the shaping string. -/
def itemBytes : InlineItem → List UInt8
  | .text run _ _ => utf8 run
  | .lineBreak => [0x0A]

/-- The index of an item, if it is text. -/
def textIndex : InlineItem × Nat → Option Nat
  | (.text _ _ _, index) => some index
  | (.lineBreak, _) => none

/-- For each byte of the shaping string, the text item it comes from. -/
def sourcesOf (entries : List (InlineItem × Nat)) : List (Option Nat) :=
  entries.flatMap fun entry => (itemBytes entry.1).map fun _ => textIndex entry

/-- The text item at a byte of the shaping string, found by looking at one span after the other. -/
def scanItem (spans : List Span) (offset : Nat) : Option Nat :=
  (spans.find? fun s => decide (s.start ≤ offset ∧ offset < s.stop)).map (·.item)

/-- The length of a text in bytes. -/
theorem length_utf8 (text : StrTendril) : (utf8 text).length = byteLen text := by
  rw [utf8, List.length_flatMap, byteLen]
  simp only [String.length_utf8EncodeChar]

/-- The bytes of two texts, one after another. -/
theorem utf8_append (a b : StrTendril) : utf8 (a ++ b) = utf8 a ++ utf8 b := List.flatMap_append

/-- Spans of a string, each with some bytes and in order. -/
structure Ordered (spans : List Span) : Prop where
  nonempty : ∀ s ∈ spans, s.start < s.stop
  disjoint : spans.Pairwise fun a b => a.stop ≤ b.start

/-- On ordered spans the binary search finds what the scan finds. -/
theorem Ordered.spanItem_eq {spans : List Span} (h : Ordered spans) (offset : Nat) :
    spanItem spans offset = scanItem spans offset := by
  have hpartitioned : PartitionPoint.Partitioned (fun s : Span => decide (s.stop ≤ offset)) spans := by
    refine h.disjoint.imp_of_mem ?_
    intro a b _ hb hab hstop
    have := h.nonempty b hb
    simp only [decide_eq_true_eq] at hstop ⊢
    omega
  rw [spanItem, hpartitioned.getElem?_partitionPoint, scanItem]
  obtain ⟨hnonempty, hdisjoint⟩ := h
  congr 1
  clear hpartitioned
  induction spans with
  | nil => rfl
  | cons s spans ih =>
    obtain ⟨hs, hspans⟩ := List.pairwise_cons.1 hdisjoint
    by_cases hstop : s.stop ≤ offset
    · rw [List.find?_cons_of_neg (by simpa using hstop), List.find?_cons_of_neg (by simp; omega)]
      exact ih (fun t ht => hnonempty t (List.mem_cons_of_mem _ ht)) hspans
    · rw [List.find?_cons_of_pos (by simpa using hstop)]
      by_cases hstart : s.start ≤ offset
      · rw [List.find?_cons_of_pos (by simp; omega)]
        simp [hstart]
      · -- what comes after a span that begins later begins later still
        have hnone : (spans.find? fun s => decide (s.start ≤ offset ∧ offset < s.stop)) = none := by
          rw [List.find?_eq_none]
          intro t ht
          have := hs t ht
          rw [decide_eq_true_eq]
          omega
        rw [List.find?_cons_of_neg (by simp; omega), hnone]
        exact Option.filter_some_neg (by simpa using hstart)

/-- One more span that begins where or after the others end. -/
theorem Ordered.concat {spans : List Span} (h : Ordered spans) {next : Span} (hnext : next.start < next.stop)
    (hafter : ∀ s ∈ spans, s.stop ≤ next.start) : Ordered (spans ++ [next]) := by
  refine ⟨?_, List.pairwise_append.2 ⟨h.disjoint, List.pairwise_singleton _ _, ?_⟩⟩
  · intro s hs
    rcases List.mem_append.1 hs with hs | hs
    · exact h.nonempty s hs
    · rwa [List.mem_singleton.1 hs]
  · intro a ha b hb
    rw [List.mem_singleton.1 hb]
    exact hafter a ha

/-- The string and the spans after some of the items. -/
structure Concatenated (entries : List (InlineItem × Nat)) (s : StrTendril × List Span) : Prop where
  bytes : utf8 s.1 = entries.flatMap fun entry => itemBytes entry.1
  spans : Ordered s.2
  within : ∀ span ∈ s.2, span.stop ≤ (utf8 s.1).length
  /-- The bytes of a span are those of the text it names. -/
  named : ∀ span ∈ s.2, ∃ run style node, (.text run style node, span.item) ∈ entries ∧
    ((utf8 s.1).drop span.start).take (span.stop - span.start) = utf8 run
  /-- The spans say where each byte comes from. -/
  scan : ∀ offset, scanItem s.2 offset = (sourcesOf entries)[offset]?.join
  breaks : ∀ offset : Nat, (sourcesOf entries)[offset]? = some none → (utf8 s.1)[offset]? = some 0x0A

/-- Every byte has a source. -/
theorem length_sourcesOf (entries : List (InlineItem × Nat)) :
    (sourcesOf entries).length = (entries.flatMap fun entry => itemBytes entry.1).length := by
  simp only [sourcesOf, List.length_flatMap, List.length_map]

/-- The sources of one more item. -/
theorem sourcesOf_concat (entries : List (InlineItem × Nat)) (entry : InlineItem × Nat) :
    sourcesOf (entries ++ [entry]) = sourcesOf entries ++ (itemBytes entry.1).map fun _ => textIndex entry := by
  rw [sourcesOf, List.flatMap_append, List.flatMap_singleton, sourcesOf]

variable {entries : List (InlineItem × Nat)} {s : StrTendril × List Span}

/-- Every byte of the text has a source. -/
theorem Concatenated.length_sources (h : Concatenated entries s) : (sourcesOf entries).length = (utf8 s.1).length := by
  rw [length_sourcesOf, ← h.bytes]

/-- More bytes at the end leave what the spans cover as it is. -/
theorem Concatenated.named_append (h : Concatenated entries s) (more : List UInt8) (entry : InlineItem × Nat) :
    ∀ span ∈ s.2, ∃ run style node, (.text run style node, span.item) ∈ entries ++ [entry] ∧
      ((utf8 s.1 ++ more).drop span.start).take (span.stop - span.start) = utf8 run := by
  intro span hspan
  obtain ⟨run, style, node, hmem, hbytes⟩ := h.named span hspan
  have hstop := h.within span hspan
  have hstart := h.spans.nonempty span hspan
  refine ⟨run, style, node, List.mem_append_left _ hmem, ?_⟩
  rw [List.drop_append_of_le_length (by omega), List.take_append_of_le_length (by rw [List.length_drop]; omega), hbytes]

/-- The bytes without a source stay line feeds, if the added ones are. -/
theorem Concatenated.breaks_append (h : Concatenated entries s) {sources : List (Option Nat)} {more : List UInt8}
    (hmore : ∀ i : Nat, sources[i]? = some none → more[i]? = some 0x0A) (offset : Nat)
    (hnone : (sourcesOf entries ++ sources)[offset]? = some none) : (utf8 s.1 ++ more)[offset]? = some 0x0A := by
  have hlen := h.length_sources
  rcases Nat.lt_or_ge offset (sourcesOf entries).length with hlt | hge
  · rw [List.getElem?_append_left hlt] at hnone
    rw [List.getElem?_append_left (by omega)]
    exact h.breaks offset hnone
  · rw [List.getElem?_append_right hge] at hnone
    rw [List.getElem?_append_right (by omega), ← hlen]
    exact hmore _ hnone

/-- A forced break adds a byte no span covers. -/
theorem Concatenated.lineBreak (h : Concatenated entries s) (index : Nat) :
    Concatenated (entries ++ [(.lineBreak, index)]) (s.1 ++ ['\n'], s.2) := by
  have hbytes : utf8 (s.1 ++ ['\n']) = utf8 s.1 ++ [0x0A] := by rw [utf8_append]; rfl
  have hsources : sourcesOf (entries ++ [(.lineBreak, index)]) = sourcesOf entries ++ [none] := sourcesOf_concat _ _
  refine ⟨?_, h.spans, ?_, ?_, ?_, ?_⟩
  · rw [hbytes, h.bytes, List.flatMap_append]
    rfl
  · intro span hspan
    rw [hbytes, List.length_append]
    exact Nat.le_add_right_of_le (h.within span hspan)
  · rw [hbytes]
    exact h.named_append _ _
  · intro offset
    rw [h.scan, hsources]
    rcases Nat.lt_trichotomy offset (sourcesOf entries).length with hlt | rfl | hgt
    · rw [List.getElem?_append_left hlt]
    · rw [List.getElem?_eq_none (Nat.le_refl _), List.getElem?_concat_length]
      rfl
    · rw [List.getElem?_eq_none (by omega), List.getElem?_eq_none (by rw [List.length_append, List.length_singleton]; omega)]
  · rw [hsources, hbytes]
    refine h.breaks_append ?_
    intro i hi
    cases i with
    | zero => rfl
    | succ i => cases hi

/-- The span of a text that follows what is there. -/
def nextSpan (text run : StrTendril) (index : Nat) : Span :=
  { start := byteLen text, stop := byteLen (text ++ run), item := index }

/-- A span is as long as its run. -/
theorem stop_nextSpan (text run : StrTendril) (index : Nat) :
    (nextSpan text run index).stop = (nextSpan text run index).start + (utf8 run).length := by
  simp only [nextSpan, ← length_utf8, utf8_append, List.length_append]

/-- A scan that finds nothing among the spans there are tries the next one. -/
theorem scanItem_concat (spans : List Span) (next : Span) (offset : Nat) :
    scanItem (spans ++ [next]) offset = (scanItem spans offset).or
      (if next.start ≤ offset ∧ offset < next.stop then some next.item else none) := by
  rw [scanItem, List.find?_append, scanItem]
  cases spans.find? fun s => decide (s.start ≤ offset ∧ offset < s.stop) with
  | some span => rfl
  | none =>
    by_cases hin : next.start ≤ offset ∧ offset < next.stop
    · rw [if_pos hin, List.find?_cons_of_pos (by simpa using hin)]
      rfl
    · rw [if_neg hin, List.find?_cons_of_neg (by simpa using hin)]
      rfl

/-- A text with some bytes adds them and a span that covers them. -/
theorem Concatenated.text (h : Concatenated entries s) {run : StrTendril} (style : LayoutStyle) (node : NodeId) (index : Nat)
    (hrun : utf8 run ≠ []) :
    Concatenated (entries ++ [(.text run style node, index)]) (s.1 ++ run, s.2 ++ [nextSpan s.1 run index]) := by
  have hbytes : utf8 (s.1 ++ run) = utf8 s.1 ++ utf8 run := utf8_append _ _
  have hsources : sourcesOf (entries ++ [(.text run style node, index)]) =
      sourcesOf entries ++ (utf8 run).map fun _ => some index := sourcesOf_concat _ _
  have hlen := h.length_sources
  have hstart : (nextSpan s.1 run index).start = (utf8 s.1).length := (length_utf8 _).symm
  have hstop := stop_nextSpan s.1 run index
  have hpos : 0 < (utf8 run).length := List.length_pos_of_ne_nil hrun
  refine ⟨?_, h.spans.concat (by omega) ?_, ?_, ?_, ?_, ?_⟩
  · rw [hbytes, h.bytes, List.flatMap_append, List.flatMap_singleton]
    rfl
  · rw [hstart]
    exact h.within
  · intro span hspan
    rw [hbytes, List.length_append]
    rcases List.mem_append.1 hspan with hspan | hspan
    · exact Nat.le_add_right_of_le (h.within span hspan)
    · rw [List.mem_singleton.1 hspan, hstop, hstart]
  · intro span hspan
    rw [hbytes]
    rcases List.mem_append.1 hspan with hspan | hspan
    · exact h.named_append _ _ span hspan
    · rw [List.mem_singleton.1 hspan]
      refine ⟨run, style, node, List.mem_append_right _ (List.mem_singleton_self _), ?_⟩
      rw [hstop, hstart, Nat.add_sub_cancel_left, List.drop_left, List.take_length]
  · intro offset
    rw [scanItem_concat, h.scan, hsources, hstop, hstart]
    rcases Nat.lt_or_ge offset (utf8 s.1).length with hlt | hge
    · rw [if_neg (by omega), Option.or_none, List.getElem?_append_left (by omega)]
    · rw [List.getElem?_eq_none (by omega), List.getElem?_append_right (by omega), List.getElem?_map, hlen]
      by_cases hin : offset < (utf8 s.1).length + (utf8 run).length
      · rw [if_pos ⟨hge, hin⟩, List.getElem?_eq_getElem (by omega)]
        rfl
      · rw [if_neg (by omega), List.getElem?_eq_none (by omega)]
        rfl
  · rw [hsources, hbytes]
    refine h.breaks_append ?_
    intro i hi
    rw [List.getElem?_map] at hi
    obtain ⟨-, -, hsource⟩ := Option.map_eq_some_iff.1 hi
    cases hsource

/-- A text without bytes adds nothing. -/
theorem Concatenated.empty (h : Concatenated entries s) {run : StrTendril} (style : LayoutStyle) (node : NodeId) (index : Nat)
    (hrun : utf8 run = []) : Concatenated (entries ++ [(.text run style node, index)]) (s.1 ++ run, s.2) := by
  have hbytes : utf8 (s.1 ++ run) = utf8 s.1 := by rw [utf8_append, hrun, List.append_nil]
  have hsources : sourcesOf (entries ++ [(.text run style node, index)]) = sourcesOf entries := by
    rw [sourcesOf_concat, itemBytes, hrun, List.map_nil, List.append_nil]
  refine ⟨?_, h.spans, ?_, ?_, ?_, ?_⟩
  · rw [hbytes, h.bytes, List.flatMap_append, List.flatMap_singleton, itemBytes, hrun, List.append_nil]
  · rw [hbytes]
    exact h.within
  · have := h.named_append [] (.text run style node, index)
    rw [List.append_nil] at this
    rwa [hbytes]
  · rw [hsources]
    exact h.scan
  · rw [hsources, hbytes]
    exact h.breaks

/-- One more item is concatenated. -/
theorem Concatenated.step (h : Concatenated entries s) (entry : InlineItem × Nat) :
    Concatenated (entries ++ [entry]) (concatenateStep s entry) := by
  obtain ⟨item, index⟩ := entry
  cases item with
  | lineBreak => exact h.lineBreak index
  | text run style node =>
    have hlen : byteLen (s.1 ++ run) = byteLen s.1 + (utf8 run).length := by
      rw [← length_utf8, ← length_utf8, utf8_append, List.length_append]
    unfold concatenateStep
    dsimp only
    by_cases hrun : utf8 run = []
    · rw [if_neg (by rw [hlen, hrun]; simp)]
      exact h.empty style node index hrun
    · have := List.length_pos_of_ne_nil hrun
      rw [if_pos (by omega)]
      exact h.text style node index hrun

/-- All items are concatenated. -/
theorem concatenated_foldl (entries : List (InlineItem × Nat)) :
    Concatenated entries (entries.foldl concatenateStep ([], [])) := by
  induction entries using List.reverseRecOn with
  | nil => exact ⟨rfl, ⟨by simp, .nil⟩, by simp, by simp, by simp [scanItem, sourcesOf], by simp [sourcesOf]⟩
  | append_singleton entries entry ih =>
    rw [List.foldl_concat]
    exact ih.step entry

/-- The spans of the shaping string: each has some bytes, they are in order and do not overlap, each covers the bytes of the
text it names, every byte of a text is covered by its span, and every byte that is not is a break's newline. The binary search
finds the span of every byte, and none at every other offset, as a scan does. -/
theorem concatenate_spans (items : List InlineItem) :
    utf8 (concatenate items).1 = items.flatMap itemBytes ∧
      Ordered (concatenate items).2 ∧
      (∀ span ∈ (concatenate items).2, ∃ run style node, items[span.item]? = some (.text run style node) ∧
        ((utf8 (concatenate items).1).drop span.start).take (span.stop - span.start) = utf8 run) ∧
      (∀ offset, scanItem (concatenate items).2 offset = (sourcesOf items.zipIdx)[offset]?.join) ∧
      (∀ offset < (utf8 (concatenate items).1).length, scanItem (concatenate items).2 offset = none →
        (utf8 (concatenate items).1)[offset]? = some 0x0A) ∧
      ∀ offset, spanItem (concatenate items).2 offset = scanItem (concatenate items).2 offset := by
  have h := concatenated_foldl items.zipIdx
  have hitems : items.zipIdx.flatMap (fun entry => itemBytes entry.1) = items.flatMap itemBytes := by
    rw [← List.flatMap_map, List.zipIdx_map_fst]
  refine ⟨h.bytes.trans hitems, h.spans, ?_, h.scan, ?_, h.spans.spanItem_eq⟩
  · intro span hspan
    obtain ⟨run, style, node, hmem, hbytes⟩ := h.named span hspan
    exact ⟨run, style, node, List.mk_mem_zipIdx_iff_getElem?.1 hmem, hbytes⟩
  · intro offset hlt hnone
    refine h.breaks offset ?_
    have hlt : offset < (sourcesOf items.zipIdx).length := h.length_sources ▸ hlt
    have hscan := h.scan offset
    rw [List.getElem?_eq_getElem hlt] at hscan ⊢
    exact congrArg some (hscan.symm.trans hnone)

end Text

end ChromeLight
