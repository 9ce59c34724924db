import ChromeLight.Theorems.Culling

/-!
# The validator decides a specification

What a display list has to be is said here without the validator's own arithmetic: numbers are integers, the region is the
bounds widened by a margin that no number cuts off, and the clips of a list are counted, pushes against pops, in each of its
prefixes. The validator accepts exactly the lists that are so (`ListOk`), and its error is the one of the first thing that is
not (`Verdict`): of the bounds, of the number of items, of the least index at which the prefix is not as it has to be, and of
the clips left open only where no item is at fault.
-/

namespace ChromeLight

namespace Validate

open Au (IsI32)

/-! ## The specification -/

/-- Bounds of a size above zero whose far edges are app units. -/
def BoundsOk (bounds : Rect) : Prop :=
  0 < bounds.size.w.units ∧ 0 < bounds.size.h.units ∧ IsI32 (bounds.origin.x.units + bounds.size.w.units) ∧
    IsI32 (bounds.origin.y.units + bounds.size.h.units)

/-- A rect of a size not below zero whose far edges are app units. -/
def RectOk (r : Rect) : Prop :=
  0 ≤ r.size.w.units ∧ 0 ≤ r.size.h.units ∧ IsI32 (r.origin.x.units + r.size.w.units) ∧
    IsI32 (r.origin.y.units + r.size.h.units)

/-- 4096 pixels, in app units. -/
def margin : Int := 4096 * 60

/-- The span from `lo` of length `len` has a part of some length in common with the span from `start` to `stop`. A span without
a length is a point of it. -/
def SpanOverlaps (lo len start stop : Int) : Prop :=
  if len = 0 then start ≤ lo ∧ lo ≤ stop else max lo start < min (lo + len) stop

/-- The rect overlaps the widened bounds in both directions. -/
def Overlaps (bounds r : Rect) : Prop :=
  SpanOverlaps r.origin.x.units r.size.w.units (bounds.origin.x.units - margin)
      (bounds.origin.x.units + bounds.size.w.units + margin) ∧
    SpanOverlaps r.origin.y.units r.size.h.units (bounds.origin.y.units - margin)
      (bounds.origin.y.units + bounds.size.h.units + margin)

/-- The point is in the widened bounds, their edges included. -/
def Inside (bounds : Rect) (p : Point) : Prop :=
  (bounds.origin.x.units - margin ≤ p.x.units ∧ p.x.units ≤ bounds.origin.x.units + bounds.size.w.units + margin) ∧
    bounds.origin.y.units - margin ≤ p.y.units ∧ p.y.units ≤ bounds.origin.y.units + bounds.size.h.units + margin

/-- Each width is between zero and the dimension of the rect it is measured along. -/
def WidthsOk (r : Rect) (widths : Sides Au) : Prop :=
  (0 ≤ widths.top.units ∧ widths.top.units ≤ r.size.h.units) ∧
    (0 ≤ widths.right.units ∧ widths.right.units ≤ r.size.w.units) ∧
    (0 ≤ widths.bottom.units ∧ widths.bottom.units ≤ r.size.h.units) ∧
    0 ≤ widths.left.units ∧ widths.left.units ≤ r.size.w.units

/-- Every glyph's position is in app units. -/
def PositionsOk (run : GlyphRun) : Prop :=
  ∀ glyph ∈ run.glyphs, IsI32 (run.origin.x.units + glyph.x.units) ∧ IsI32 (run.origin.y.units + glyph.y.units)

/-- What an item has to be by itself. -/
def ItemOk (bounds : Rect) : DisplayItem → Prop
  | .rect r _ => RectOk r ∧ Overlaps bounds r
  | .border r widths _ => RectOk r ∧ Overlaps bounds r ∧ WidthsOk r widths
  | .text run => run.glyphs.length ≤ 65536 ∧ Inside bounds run.origin ∧ PositionsOk run
  | .pushClip r => RectOk r ∧ Overlaps bounds r
  | .popClip => True

/-- The item opens a clip. -/
def isPush : DisplayItem → Bool
  | .pushClip _ => true
  | _ => false

/-- The item closes a clip. -/
def isPop : DisplayItem → Bool
  | .popClip => true
  | _ => false

/-- How many clips the items open. -/
def pushes (items : List DisplayItem) : Nat := items.countP isPush

/-- How many clips the items close. -/
def pops (items : List DisplayItem) : Nat := items.countP isPop

/-- What the items up to an index have to be: each of them by itself, and in none of their prefixes are there more pops than
pushes, or more than 256 pushes not yet popped. -/
def PrefixOk (bounds : Rect) (items : List DisplayItem) : Prop :=
  (∀ item ∈ items, ItemOk bounds item) ∧
    ∀ before, before <+: items → pops before ≤ pushes before ∧ pushes before ≤ pops before + 256

/-- What a display list has to be. -/
def ListOk (bounds : Rect) (items : List DisplayItem) : Prop :=
  BoundsOk bounds ∧ items.length ≤ 1000000 ∧ PrefixOk bounds items ∧ pushes items = pops items

/-- The rect an item with one is checked by. -/
def rectOf? : DisplayItem → Option Rect
  | .rect r _ | .border r _ _ | .pushClip r => some r
  | .text _ | .popClip => none

/-- The error that says what is wrong with an item at an index, after the items before it: the first of its rules it breaks. -/
inductive Blames (bounds : Rect) (index : Nat) (before : List DisplayItem) : DisplayItem → DisplayListError → Prop
  | rect {item r} : rectOf? item = some r → ¬RectOk r → Blames bounds index before item (.invalidRect index)
  | outside {item r} : rectOf? item = some r → RectOk r → ¬Overlaps bounds r →
      Blames bounds index before item (.outOfBounds index)
  | widths {r widths colors} : RectOk r → Overlaps bounds r → ¬WidthsOk r widths →
      Blames bounds index before (.border r widths colors) (.invalidRect index)
  | tooDeep {r} : RectOk r → Overlaps bounds r → pushes before = pops before + 256 →
      Blames bounds index before (.pushClip r) (.tooDeepClip index 256)
  | glyphs {run} : 65536 < run.glyphs.length → Blames bounds index before (.text run) (.tooManyGlyphs index)
  | origin {run} : run.glyphs.length ≤ 65536 → ¬Inside bounds run.origin →
      Blames bounds index before (.text run) (.outOfBounds index)
  | positions {run} : run.glyphs.length ≤ 65536 → Inside bounds run.origin → ¬PositionsOk run →
      Blames bounds index before (.text run) (.invalidRect index)
  | pop : pushes before = pops before → Blames bounds index before .popClip (.popWithoutPush index)

/-- The error of a display list that is not as it has to be: of the bounds, then of the number of items, then of the least
index at which the prefix is not as it has to be, then of the clips open at the end. -/
inductive Verdict (bounds : Rect) (items : List DisplayItem) : DisplayListError → Prop
  | bounds : ¬BoundsOk bounds → Verdict bounds items .invalidBounds
  | count : BoundsOk bounds → 1000000 < items.length → Verdict bounds items (.tooManyItems items.length 1000000)
  | item {index item error} : BoundsOk bounds → items.length ≤ 1000000 →
      (∀ n ≤ index, PrefixOk bounds (items.take n)) → ¬PrefixOk bounds (items.take (index + 1)) →
      items[index]? = some item → Blames bounds index (items.take index) item error → Verdict bounds items error
  | clips : BoundsOk bounds → items.length ≤ 1000000 → PrefixOk bounds items → pushes items ≠ pops items →
      Verdict bounds items (.unbalancedClip (pushes items - pops items))

/-! ## The tests of the code -/

variable {bounds : Rect} {index depth : Nat} {item : DisplayItem} {items before : List DisplayItem}

/-- The bounds are checked as they should be. -/
theorem boundsIsValid_iff : boundsIsValid bounds = true ↔ BoundsOk bounds := by
  simp only [boundsIsValid, decide_eq_true_eq, gt_iff_lt, Au.lt_iff, Au.units_zero, Au.isSome_checkedAdd]
  exact Iff.rfl

/-- A rect is checked as it should be. -/
theorem rectIsValid_iff {r : Rect} : rectIsValid r = true ↔ RectOk r := Paint.rectIsValid_iff

/-- The margin in units. -/
theorem units_margin : (Au.fromPx offscreenMarginPx).units = margin := by decide

/-- One axis of the intersection test. The widened bounds of the code are cut off at the ends of the app units, which no span
in app units notices. -/
theorem axisOverlaps_iff {lo len start extent : Au} (hlen : 0 ≤ len.units) (hfits : lo.AddFits len)
    (hpos : 0 < extent.units) (hext : start.AddFits extent) :
    axisOverlaps lo (lo.saturatingAdd len) (start.saturatingSub (Au.fromPx offscreenMarginPx))
        ((start.saturatingAdd extent).saturatingAdd (Au.fromPx offscreenMarginPx)) = true ↔
      SpanOverlaps lo.units len.units (start.units - margin) (start.units + extent.units + margin) := by
  have hhi := hfits.units_saturatingAdd
  have hstop := hext.units_saturatingAdd
  have hlo := lo.isI32
  have hstart := start.isI32
  have hend := (start.saturatingAdd extent).isI32
  have hmargin : margin = 245760 := rfl
  obtain ⟨_, hhi2⟩ := hfits
  unfold axisOverlaps SpanOverlaps
  by_cases hzero : len.units = 0
  · have heq : lo = lo.saturatingAdd len := Au.ext_units (by omega)
    rw [if_pos hzero, if_pos heq]
    simp only [ge_iff_le, Au.le_iff, decide_eq_true_eq, Au.units_saturatingAdd _ (Au.fromPx _), hstop,
      Au.units_saturatingSub, units_margin]
    omega
  · have hne : ¬lo = lo.saturatingAdd len := by
      intro heq
      have := congrArg Au.units heq
      omega
    rw [if_neg hzero, if_neg hne]
    simp only [gt_iff_lt, Au.lt_iff, decide_eq_true_eq, Au.units_saturatingAdd _ (Au.fromPx _), hstop, hhi,
      Au.units_saturatingSub, units_margin]
    omega

/-- A valid rect is culled exactly if it does not overlap the region. -/
theorem intersectsRect_iff {r : Rect} (hb : BoundsOk bounds) (hr : RectOk r) :
    (inflate bounds).intersectsRect r = true ↔ Overlaps bounds r := by
  obtain ⟨hw, hh, hx, hy⟩ := hb
  obtain ⟨rw0, rh0, rx, ry⟩ := hr
  unfold InflatedBounds.intersectsRect Overlaps
  rw [Bool.and_eq_true]
  exact and_congr (axisOverlaps_iff rw0 rx hw hx) (axisOverlaps_iff rh0 ry hh hy)

/-- A point is culled exactly if it is outside of the region. -/
theorem containsPoint_iff {p : Point} (hb : BoundsOk bounds) : (inflate bounds).containsPoint p = true ↔ Inside bounds p := by
  obtain ⟨hw, hh, hx, hy⟩ := hb
  have hright := Au.AddFits.units_saturatingAdd hx
  have hbottom := Au.AddFits.units_saturatingAdd hy
  have hpx := p.x.isI32
  have hpy := p.y.isI32
  have horigin := bounds.origin.x.isI32
  have horigin' := bounds.origin.y.isI32
  have hmargin : margin = 245760 := rfl
  simp only [IsI32] at hx hy
  simp only [InflatedBounds.containsPoint, inflate, Rect.right, Rect.bottom, Inside, ge_iff_le, Au.le_iff,
    decide_eq_true_eq, Au.units_saturatingAdd _ (Au.fromPx _), Au.units_saturatingSub, hright, hbottom, units_margin]
  omega

/-- Widths are checked as they should be. -/
theorem borderWidthsValid_iff {r : Rect} {widths : Sides Au} : borderWidthsValid r widths = true ↔ WidthsOk r widths := by
  simp only [borderWidthsValid, WidthsOk, ge_iff_le, Au.le_iff, Au.units_zero, decide_eq_true_eq]
  omega

/-- Positions are checked as they should be. -/
theorem glyphsFit_iff {run : GlyphRun} : glyphsFit run = true ↔ PositionsOk run := by
  simp only [glyphsFit, List.all_eq_true, Bool.and_eq_true, Au.isSome_checkedAdd]
  exact Iff.rfl

/-- A rect passes both checks. -/
theorem checkRect_fits (hb : BoundsOk bounds) {r : Rect} :
    (rectIsValid r = true ∧ (inflate bounds).intersectsRect r = true) ↔ RectOk r ∧ Overlaps bounds r := by
  rw [rectIsValid_iff]
  exact and_congr_right fun hr => intersectsRect_iff hb hr

/-- What an item has to be at a number of open clips is what it has to be by itself, and room for it among the clips. -/
theorem fits_iff (hb : BoundsOk bounds) : item.Fits (inflate bounds) depth ↔
    ItemOk bounds item ∧ (isPush item = true → depth + 1 ≤ 256) ∧ (isPop item = true → depth ≠ 0) := by
  cases item with
  | rect r color => simp [DisplayItem.Fits, ItemOk, isPush, isPop, checkRect_fits hb]
  | border r widths colors =>
    simp [DisplayItem.Fits, ItemOk, isPush, isPop, checkRect_fits hb, borderWidthsValid_iff, and_assoc]
  | text run =>
    simp [DisplayItem.Fits, ItemOk, isPush, isPop, containsPoint_iff hb, glyphsFit_iff, maxGlyphsPerRun]
  | pushClip r => simp [DisplayItem.Fits, ItemOk, isPush, isPop, checkRect_fits hb, maxClipDepth]
  | popClip => simp [DisplayItem.Fits, ItemOk, isPush, isPop]

/-! ## The depth counter -/

/-- One more item opens one more clip at most. -/
theorem pushes_concat : pushes (items ++ [item]) = pushes items + if isPush item = true then 1 else 0 := by
  rw [pushes, List.countP_append, List.countP_singleton, pushes]

/-- One more item closes one more clip at most. -/
theorem pops_concat : pops (items ++ [item]) = pops items + if isPop item = true then 1 else 0 := by
  rw [pops, List.countP_append, List.countP_singleton, pops]

/-- The counter is the pushes that are not yet popped. -/
theorem depth_add_pops {inflated : InflatedBounds} (h : ItemsFit inflated 0 items) :
    items.foldl depthAfter 0 + pops items = pushes items := by
  induction items using List.reverseRecOn with
  | nil => rfl
  | append_singleton items item ih =>
    obtain ⟨hitems, hitem, _⟩ := ItemsFit_append.1 h
    have hdepth := ih hitems
    rw [List.foldl_concat, pushes_concat, pops_concat]
    cases item with
    | popClip =>
      have hpos : items.foldl depthAfter 0 ≠ 0 := hitem
      simp only [depthAfter, isPush, isPop, if_true, Bool.false_eq_true, if_false]
      omega
    | pushClip r =>
      simp only [depthAfter, isPush, isPop, if_true, Bool.false_eq_true, if_false]
      omega
    | rect r color => simpa [depthAfter, isPush, isPop] using hdepth
    | border r widths colors => simpa [depthAfter, isPush, isPop] using hdepth
    | text run => simpa [depthAfter, isPush, isPop] using hdepth

/-- One more item at the end of a prefix. -/
theorem prefixOk_concat : PrefixOk bounds (items ++ [item]) ↔ PrefixOk bounds items ∧ ItemOk bounds item ∧
    pops (items ++ [item]) ≤ pushes (items ++ [item]) ∧ pushes (items ++ [item]) ≤ pops (items ++ [item]) + 256 := by
  constructor
  · rintro ⟨hitems, hcounts⟩
    refine ⟨⟨fun i hi => hitems i (List.mem_append_left _ hi), ?_⟩, hitems item (by simp), hcounts _ (List.prefix_refl _)⟩
    intro before hbefore
    exact hcounts before (hbefore.trans (List.prefix_append _ _))
  · rintro ⟨⟨hitems, hcounts⟩, hitem, hlast⟩
    refine ⟨?_, ?_⟩
    · intro i hi
      rcases List.mem_append.1 hi with hi | hi
      · exact hitems i hi
      · rw [List.mem_singleton.1 hi]
        exact hitem
    · intro before hbefore
      rcases List.prefix_concat_iff.1 hbefore with rfl | hbefore
      · exact hlast
      · exact hcounts before hbefore

/-- The running check of the items is the specification of their prefixes. -/
theorem itemsFit_iff (hb : BoundsOk bounds) : ItemsFit (inflate bounds) 0 items ↔ PrefixOk bounds items := by
  induction items using List.reverseRecOn with
  | nil => simp [ItemsFit, PrefixOk, pushes, pops]
  | append_singleton items item ih =>
    rw [ItemsFit_append, prefixOk_concat, ih]
    refine and_congr_right fun hbefore => ?_
    have hdepth := depth_add_pops (ih.2 hbefore)
    have hcounts := hbefore.2 items (List.prefix_refl _)
    simp only [ItemsFit, and_true, fits_iff hb, pushes_concat, pops_concat]
    refine and_congr_right fun _ => ?_
    cases item with
    | popClip =>
      simp only [isPush, isPop, if_true, Bool.false_eq_true, if_false, false_implies, true_implies, true_and]
      omega
    | pushClip r =>
      simp only [isPush, isPop, if_true, Bool.false_eq_true, if_false, false_implies, true_implies, and_true]
      omega
    | rect r color => simpa [isPush, isPop] using hcounts
    | border r widths colors => simpa [isPush, isPop] using hcounts
    | text run => simpa [isPush, isPop] using hcounts

/-! ## The first offender -/

/-- How a rect is refused. -/
theorem checkRect_eq_error (hb : BoundsOk bounds) {r : Rect} {error : DisplayListError} :
    checkRect r index (inflate bounds) = .error error ↔
      (¬RectOk r ∧ error = .invalidRect index) ∨ (RectOk r ∧ ¬Overlaps bounds r ∧ error = .outOfBounds index) := by
  unfold checkRect
  by_cases hr : RectOk r
  · rw [if_neg (by simp [rectIsValid_iff.2 hr])]
    by_cases ho : Overlaps bounds r
    · simp [(intersectsRect_iff hb hr).2 ho, hr, ho]
    · have : (inflate bounds).intersectsRect r = false := by
        rw [← Bool.not_eq_true, intersectsRect_iff hb hr]
        exact ho
      simp [this, hr, ho, eq_comm]
  · have : rectIsValid r = false := by
      rw [← Bool.not_eq_true, rectIsValid_iff]
      exact hr
    simp [this, hr, eq_comm]

/-- A check that only fails or passes, followed by one that may fail. -/
theorem bind_eq_error {ε α : Type} {c : Except ε Unit} {next : Except ε α} {e : ε} :
    (c >>= fun _ => next) = .error e ↔ c = .error e ∨ (c = .ok () ∧ next = .error e) := by
  cases c with
  | error e' => simp [bind, Except.bind]
  | ok u => cases u; simp [bind, Except.bind]

/-- When a rect is accepted. -/
theorem checkRect_eq_ok_iff (hb : BoundsOk bounds) {r : Rect} :
    checkRect r index (inflate bounds) = .ok () ↔ RectOk r ∧ Overlaps bounds r := by
  rw [checkRect_eq_ok, checkRect_fits hb]

/-- How a run is refused. -/
theorem checkTextRun_eq_error (hb : BoundsOk bounds) {run : GlyphRun} {error : DisplayListError} :
    checkTextRun run index (inflate bounds) = .error error ↔ Blames bounds index before (.text run) error := by
  unfold checkTextRun
  constructor
  · intro h
    split at h
    · rename_i hlen
      cases h
      exact .glyphs hlen
    · rename_i hlen
      have hlen : run.glyphs.length ≤ 65536 := Nat.le_of_not_lt hlen
      split at h
      · rename_i hin
        cases h
        refine .origin hlen fun hinside => ?_
        simp [(containsPoint_iff hb).2 hinside] at hin
      · rename_i hin
        have hinside : Inside bounds run.origin := (containsPoint_iff hb).1 (by simpa using hin)
        split at h
        · rename_i hfit
          cases h
          refine .positions hlen hinside fun hpositions => ?_
          simp [glyphsFit_iff.2 hpositions] at hfit
        · cases h
  · intro h
    cases h with
    | rect hr => cases hr
    | outside hr => cases hr
    | glyphs hlen => rw [if_pos (show run.glyphs.length > maxGlyphsPerRun from hlen)]
    | origin hlen hin =>
      rw [if_neg (show ¬run.glyphs.length > maxGlyphsPerRun from Nat.not_lt.2 hlen),
        if_pos (by simpa [← containsPoint_iff hb] using hin)]
    | positions hlen hin hpositions =>
      rw [if_neg (show ¬run.glyphs.length > maxGlyphsPerRun from Nat.not_lt.2 hlen),
        if_neg (by simp [(containsPoint_iff hb).2 hin]), if_pos (by simpa [← glyphsFit_iff] using hpositions)]

/-- A refused rect blames its item. -/
theorem blames_of_checkRect (hb : BoundsOk bounds) {r : Rect} (hitem : rectOf? item = some r) {error : DisplayListError}
    (h : checkRect r index (inflate bounds) = .error error) : Blames bounds index before item error := by
  rcases (checkRect_eq_error hb).1 h with ⟨hr, rfl⟩ | ⟨hr, ho, rfl⟩
  · exact .rect hitem hr
  · exact .outside hitem hr ho

/-- The rect of an item is checked before anything else about it. -/
theorem checkItem_of_checkRect {inflated : InflatedBounds} {r : Rect} (hitem : rectOf? item = some r)
    {error : DisplayListError} (h : checkRect r index inflated = .error error) :
    checkItem inflated index depth item = .error error := by
  cases item with
  | text run => cases hitem
  | popClip => cases hitem
  | rect r' color =>
    obtain rfl := Option.some.inj hitem
    exact bind_eq_error.2 (.inl h)
  | border r' widths colors =>
    obtain rfl := Option.some.inj hitem
    exact bind_eq_error.2 (.inl h)
  | pushClip r' =>
    obtain rfl := Option.some.inj hitem
    exact bind_eq_error.2 (.inl h)

/-- The check of one item fails with exactly the error that says what is wrong with it. -/
theorem checkItem_eq_error (hb : BoundsOk bounds) (hdepth : depth + pops before = pushes before) (hle : depth ≤ 256)
    {error : DisplayListError} :
    checkItem (inflate bounds) index depth item = .error error ↔ Blames bounds index before item error := by
  constructor
  · intro h
    cases item with
    | rect r color =>
      rcases bind_eq_error.1 h with h | ⟨-, h⟩
      · exact blames_of_checkRect hb rfl h
      · cases h
    | border r widths colors =>
      rcases bind_eq_error.1 h with h | ⟨hok, h⟩
      · exact blames_of_checkRect hb rfl h
      · obtain ⟨hr, ho⟩ := (checkRect_eq_ok_iff hb).1 hok
        split at h
        · rename_i hwidths
          cases h
          exact .widths hr ho (by simpa [← borderWidthsValid_iff] using hwidths)
        · cases h
    | text run =>
      rcases bind_eq_error.1 h with h | ⟨-, h⟩
      · exact (checkTextRun_eq_error hb).1 h
      · cases h
    | pushClip r =>
      rcases bind_eq_error.1 h with h | ⟨hok, h⟩
      · exact blames_of_checkRect hb rfl h
      · obtain ⟨hr, ho⟩ := (checkRect_eq_ok_iff hb).1 hok
        split at h
        · rename_i hdeep
          cases h
          have hdeep : depth + 1 > 256 := hdeep
          exact .tooDeep hr ho (by omega)
        · cases h
    | popClip =>
      simp only [checkItem] at h
      split at h
      · rename_i hzero
        cases h
        exact .pop (by omega)
      · cases h
  · intro h
    cases h with
    | rect hitem hr => exact checkItem_of_checkRect hitem ((checkRect_eq_error hb).2 (.inl ⟨hr, rfl⟩))
    | outside hitem hr ho => exact checkItem_of_checkRect hitem ((checkRect_eq_error hb).2 (.inr ⟨hr, ho, rfl⟩))
    | widths hr ho hwidths =>
      refine bind_eq_error.2 (.inr ⟨(checkRect_eq_ok_iff hb).2 ⟨hr, ho⟩, ?_⟩)
      rw [if_pos (by simpa [← borderWidthsValid_iff] using hwidths)]
    | tooDeep hr ho hdeep =>
      refine bind_eq_error.2 (.inr ⟨(checkRect_eq_ok_iff hb).2 ⟨hr, ho⟩, ?_⟩)
      rw [if_pos (show depth + 1 > maxClipDepth from Nat.lt_succ_of_le (by simp only [maxClipDepth]; omega))]
      rfl
    | glyphs hlen =>
      have hblames : Blames bounds index before _ _ := .glyphs hlen
      exact bind_eq_error.2 (.inl ((checkTextRun_eq_error hb).2 hblames))
    | origin hlen hin =>
      have hblames : Blames bounds index before _ _ := .origin hlen hin
      exact bind_eq_error.2 (.inl ((checkTextRun_eq_error hb).2 hblames))
    | positions hlen hin hpositions =>
      have hblames : Blames bounds index before _ _ := .positions hlen hin hpositions
      exact bind_eq_error.2 (.inl ((checkTextRun_eq_error hb).2 hblames))
    | pop hzero =>
      simp only [checkItem]
      rw [if_pos (by omega)]

/-- The items are checked until one of them fails. -/
theorem checkItems_eq_error {inflated : InflatedBounds} {error : DisplayListError} :
    checkItems inflated index depth items = .error error ↔ ∃ n item, items[n]? = some item ∧
      ItemsFit inflated depth (items.take n) ∧
      checkItem inflated (index + n) ((items.take n).foldl depthAfter depth) item = .error error := by
  induction items generalizing index depth with
  | nil => simp [checkItems, pure, Except.pure]
  | cons first items ih =>
    simp only [checkItems]
    cases hc : checkItem inflated index depth first with
    | error e =>
      constructor
      · intro h
        exact ⟨0, first, rfl, trivial, hc.trans h⟩
      · rintro ⟨n, item, hn, hfit, hitem⟩
        cases n with
        | zero =>
          obtain rfl := Option.some.inj hn
          exact hc.symm.trans hitem
        | succ n =>
          have : checkItem inflated index depth first = .ok _ := checkItem_eq_ok.2 ⟨hfit.1, rfl⟩
          rw [hc] at this
          cases this
    | ok d =>
      obtain ⟨hfits, rfl⟩ := checkItem_eq_ok.1 hc
      refine Iff.trans ih ⟨?_, ?_⟩
      · rintro ⟨n, item, hn, hfit, hitem⟩
        refine ⟨n + 1, item, hn, ⟨hfits, hfit⟩, ?_⟩
        rw [show index + (n + 1) = index + 1 + n by omega]
        exact hitem
      · rintro ⟨n, item, hn, hfit, hitem⟩
        cases n with
        | zero =>
          obtain rfl := Option.some.inj hn
          rw [List.take_zero, List.foldl_nil, Nat.add_zero, hc] at hitem
          cases hitem
        | succ n =>
          refine ⟨n, item, hn, hfit.2, ?_⟩
          rw [show index + 1 + n = index + (n + 1) by omega]
          exact hitem

/-- The check of the items fails exactly at the least index at which the prefix is not as it has to be, with the error of the
item there. -/
theorem checkItems_eq_error_iff (hb : BoundsOk bounds) {error : DisplayListError} :
    checkItems (inflate bounds) 0 0 items = .error error ↔ ∃ index item,
      (∀ n ≤ index, PrefixOk bounds (items.take n)) ∧ ¬PrefixOk bounds (items.take (index + 1)) ∧
      items[index]? = some item ∧ Blames bounds index (items.take index) item error := by
  rw [checkItems_eq_error]
  constructor
  · rintro ⟨n, item, hn, hfit, hitem⟩
    rw [Nat.zero_add] at hitem
    have hbefore := (itemsFit_iff hb).1 hfit
    have hdepth := depth_add_pops hfit
    have hle : (items.take n).foldl depthAfter 0 ≤ 256 := by
      have := hbefore.2 _ (List.prefix_refl _)
      omega
    refine ⟨n, item, ?_, ?_, hn, (checkItem_eq_error hb hdepth hle).1 hitem⟩
    · intro m hm
      have hsplit : ItemsFit (inflate bounds) 0 ((items.take n).take m ++ (items.take n).drop m) := by
        rw [List.take_append_drop]
        exact hfit
      rw [← itemsFit_iff hb, ← Nat.min_eq_left hm, ← List.take_take]
      exact (ItemsFit_append.1 hsplit).1
    · intro hok
      rw [List.take_add_one, hn, ← itemsFit_iff hb] at hok
      have hfits := (ItemsFit_append.1 hok).2.1
      have : checkItem (inflate bounds) n ((items.take n).foldl depthAfter 0) item = .ok _ := checkItem_eq_ok.2 ⟨hfits, rfl⟩
      rw [hitem] at this
      cases this
  · rintro ⟨n, item, hbefore, -, hn, hblames⟩
    have hfit := (itemsFit_iff hb).2 (hbefore n (Nat.le_refl n))
    have hle : (items.take n).foldl depthAfter 0 ≤ 256 := by
      have := (hbefore n (Nat.le_refl n)).2 _ (List.prefix_refl _)
      have := depth_add_pops hfit
      omega
    rw [← checkItem_eq_error hb (depth_add_pops hfit) hle] at hblames
    refine ⟨n, item, hn, hfit, ?_⟩
    rw [Nat.zero_add]
    exact hblames

/-- What follows the items: the clips left open are the pushes without a pop. -/
theorem validate_eq_error (hb : BoundsOk bounds) {dl : DisplayList} (hlen : dl.items.length ≤ 1000000)
    {error : DisplayListError} :
    validate dl bounds = .error error ↔ checkItems (inflate bounds) 0 0 dl.items = .error error ∨
      (PrefixOk bounds dl.items ∧ pushes dl.items ≠ pops dl.items ∧
        error = .unbalancedClip (pushes dl.items - pops dl.items)) := by
  unfold validate
  rw [if_neg (by simp [boundsIsValid_iff.2 hb]), if_neg (show ¬dl.items.length > maxItems from Nat.not_lt.2 hlen)]
  cases hc : checkItems (inflate bounds) 0 0 dl.items with
  | error e =>
    have hno : ¬PrefixOk bounds dl.items := by
      intro hbefore
      have : checkItems (inflate bounds) 0 0 dl.items = .ok _ := checkItems_eq_ok.2 ⟨(itemsFit_iff hb).2 hbefore, rfl⟩
      rw [hc] at this
      cases this
    simp [bind, Except.bind, hno]
  | ok d =>
    obtain ⟨hfit, rfl⟩ := checkItems_eq_ok.1 hc
    have hbefore := (itemsFit_iff hb).1 hfit
    have hdepth := depth_add_pops hfit
    have hcounts := hbefore.2 _ (List.prefix_refl _)
    simp only [bind, Except.bind, reduceCtorEq, false_or, hbefore, true_and]
    by_cases hzero : dl.items.foldl depthAfter 0 = 0
    · rw [if_neg (by simp [hzero])]
      constructor
      · intro h
        cases h
      · rintro ⟨hne, -⟩
        omega
    · have hopen : ((min (dl.items.foldl depthAfter 0) 2147483647 : Nat) : Int) = pushes dl.items - pops dl.items := by
        omega
      have hmin : (min ((dl.items.foldl depthAfter 0 : Nat) : Int) 2147483647) = pushes dl.items - pops dl.items := by
        omega
      rw [if_pos hzero, hmin, Except.error.injEq, eq_comm (a := error)]
      refine ⟨fun h => ⟨by omega, h⟩, And.right⟩

/-- The validator accepts a display list exactly if the bounds and the list are as they have to be. -/
theorem validate_eq_ok_iff {dl : DisplayList} {bounds : Rect} : validate dl bounds = .ok () ↔ ListOk bounds dl.items := by
  rw [validate_eq_ok, boundsIsValid_iff]
  refine and_congr_right fun hb => and_congr Iff.rfl ?_
  rw [itemsFit_iff hb]
  refine and_congr_right fun hbefore => ?_
  have := depth_add_pops ((itemsFit_iff hb).2 hbefore)
  omega

/-- Invalid bounds are found first. -/
theorem validate_of_bounds {dl : DisplayList} {bounds : Rect} (hb : ¬BoundsOk bounds) :
    validate dl bounds = .error .invalidBounds := by
  have hinvalid : boundsIsValid bounds = false := by
    rw [← Bool.not_eq_true, boundsIsValid_iff]
    exact hb
  unfold validate
  rw [if_pos (by simp [hinvalid])]

/-- Then that there are too many items. -/
theorem validate_of_count {dl : DisplayList} {bounds : Rect} (hb : BoundsOk bounds) (hmany : 1000000 < dl.items.length) :
    validate dl bounds = .error (.tooManyItems dl.items.length maxItems) := by
  unfold validate
  rw [if_neg (by simp [boundsIsValid_iff.2 hb]), if_pos (show dl.items.length > maxItems from hmany)]

/-- The validator's error is the verdict on the bounds and the list. -/
theorem validate_eq_error_iff {dl : DisplayList} {bounds : Rect} {error : DisplayListError} :
    validate dl bounds = .error error ↔ Verdict bounds dl.items error := by
  by_cases hb : BoundsOk bounds
  · by_cases hlen : dl.items.length ≤ 1000000
    · rw [validate_eq_error hb hlen, checkItems_eq_error_iff hb]
      constructor
      · rintro (⟨index, item, hbefore, hno, hitem, hblames⟩ | ⟨hbefore, hne, rfl⟩)
        · exact .item hb hlen hbefore hno hitem hblames
        · exact .clips hb hlen hbefore hne
      · intro h
        cases h with
        | bounds hno => exact absurd hb hno
        | count _ hmany => exact absurd hlen (Nat.not_le.2 hmany)
        | item _ _ hbefore hno hitem hblames => exact .inl ⟨_, _, hbefore, hno, hitem, hblames⟩
        | clips _ _ hbefore hne => exact .inr ⟨hbefore, hne, rfl⟩
    · have hmany : 1000000 < dl.items.length := Nat.lt_of_not_le hlen
      rw [validate_of_count hb hmany]
      constructor
      · intro h
        cases h
        exact .count hb hmany
      · intro h
        cases h with
        | bounds hno => exact absurd hb hno
        | count => rfl
        | item _ hle => exact absurd hle hlen
        | clips _ hle => exact absurd hle hlen
  · rw [validate_of_bounds hb]
    constructor
    · intro h
      cases h
      exact .bounds hb
    · intro h
      cases h with
      | bounds => rfl
      | count hok => exact absurd hok hb
      | item hok => exact absurd hok hb
      | clips hok => exact absurd hok hb

/-- The validator decides the specification: it accepts a display list exactly if the bounds and the list are as they have to
be, and its error is otherwise the verdict on them. -/
theorem validate_decides (dl : DisplayList) (bounds : Rect) :
    (validate dl bounds = .ok () ↔ ListOk bounds dl.items) ∧
      ∀ error, validate dl bounds = .error error ↔ Verdict bounds dl.items error :=
  ⟨validate_eq_ok_iff, fun _ => validate_eq_error_iff⟩

end Validate

end ChromeLight
