import ChromeLight.Lemmas.Raster

/-!
# The rasterizer on accepted display lists

A display list that the validator accepts for a canvas is executed without any app unit saturating, and with as many clip rects
as the validator counts open clips, the canvas apart (`rasterize_exact`). The one clip rect on top of the stack stands for the
canvas and all open clips: what is filled is what is visible of each rect, and glyphs are clipped to the pixels that are visible
as a whole (`rasterize_clips`).
-/

namespace ChromeLight

open Paint (RectFits rectIsValid_iff openClips)

namespace Gfx

variable {fonts : FontDb} {dl : DisplayList} {width height : Nat}

theorem isCanvas (hw : 1 ≤ width ∧ width ≤ 16384) (hh : 1 ≤ height ∧ height ≤ 16384) :
    IsCanvas (canvasBounds width height) := by
  refine ⟨rfl, ?_, ?_⟩
  · show 0 < (Au.saturate _).units ∧ (Au.saturate _).units ≤ _
    rw [Au.units_saturate]
    omega
  · show 0 < (Au.saturate _).units ∧ (Au.saturate _).units ≤ _
    rw [Au.units_saturate]
    omega

/-- What the validator accepts, item by item. -/
theorem itemsFit_of_validate {bounds : Rect} (h : validate dl bounds = .ok ()) : ItemsFit (inflate bounds) 0 dl.items :=
  (validate_eq_ok.1 h).2.2.1

/-! ## Exactness -/

/-- The rect of an item. -/
def itemRect : DisplayItem → Option Rect
  | .rect rect _ => some rect
  | .border rect _ _ => some rect
  | .pushClip rect => some rect
  | .text _ | .popClip => none

/-- The pass over a display list is exact. -/
structure Exact (fonts : FontDb) (dl : DisplayList) (width height : Nat) : Prop where
  /-- The edges of the widened canvas, and of the rects that the validator compares with it, are exact. -/
  region : (inflate (canvasBounds width height)).minX.units = -245760 ∧
    (inflate (canvasBounds width height)).minY.units = -245760 ∧
    (inflate (canvasBounds width height)).maxX.units = 60 * width + 245760 ∧
    (inflate (canvasBounds width height)).maxY.units = 60 * height + 245760
  rects : ∀ item ∈ dl.items, ∀ rect, itemRect item = some rect → RectFits rect
  /-- Where additions and subtractions fail instead of saturating, none fails. -/
  pass : rasterize .checked fonts dl width height = some (rasterize .saturating fonts dl width height).run
  /-- There is a clip rect for every clip the validator counts as open, and one for the canvas. -/
  depth : ∀ before after s, dl.items = before ++ after →
    (execute .saturating fonts (canvasBounds width height) (start (canvasBounds width height)) before).run = .ok s →
    ∃ depth, checkItems (inflate (canvasBounds width height)) 0 0 before = .ok depth ∧ s.clips.length = depth + 1
  /-- A clip that is closed is never the canvas. -/
  guard : ∀ before after s, dl.items = before ++ .popClip :: after →
    (execute .saturating fonts (canvasBounds width height) (start (canvasBounds width height)) before).run = .ok s →
    1 < s.clips.length

/-- The clip stack after some items of an accepted list. -/
theorem clips_of_execute {bounds : Rect} {before after : List DisplayItem} {s : RasterState}
    (h : ItemsFit (inflate bounds) 0 (before ++ after))
    (hs : (execute .saturating fonts bounds (start bounds) before).run = .ok s) :
    Clips bounds (openClips before) s ∧ (openClips before).length = before.foldl depthAfter 0 ∧
      ItemsFit (inflate bounds) (openClips before).length after := by
  obtain ⟨hbefore, hafter⟩ := ItemsFit_append.1 h
  obtain ⟨hclips, hlen⟩ := (Clips.start bounds).execute hbefore hs
  exact ⟨hclips, hlen, hlen ▸ hafter⟩

/-- Every list that the validator accepts for a canvas is executed exactly. -/
theorem rasterize_exact (fonts : FontDb) (dl : DisplayList) (width height : Nat) (hw : 1 ≤ width ∧ width ≤ 16384)
    (hh : 1 ≤ height ∧ height ≤ 16384) (h : validate dl (canvasBounds width height) = .ok ()) :
    Exact fonts dl width height := by
  have hb := isCanvas hw hh
  have hfit := itemsFit_of_validate h
  refine ⟨?_, ?_, ?_, ?_, ?_⟩
  · have margin : (Au.fromPx offscreenMarginPx).units = 245760 := by decide
    simp only [inflate, canvasBounds, Rect.right, Rect.bottom, Point.zero, Au.fromPx, Au.units_saturatingAdd,
      Au.units_saturatingSub, Au.units_zero, Au.units_saturate] at margin ⊢
    omega
  · intro item hitem rect hrect
    obtain ⟨before, after, hitems⟩ := List.append_of_mem hitem
    rw [hitems] at hfit
    have hi := (ItemsFit_append.1 hfit).2.1
    cases item with
    | rect r color =>
      cases hrect
      exact rectIsValid_iff.1 hi.1
    | border r widths colors =>
      cases hrect
      exact rectIsValid_iff.1 hi.1.1
    | text run => cases hrect
    | pushClip r =>
      cases hrect
      exact rectIsValid_iff.1 hi.1.1
    | popClip => cases hrect
  · unfold rasterize
    rw [if_neg (by simp only [maxDimension]; omega), if_neg (by simp only [maxDimension]; omega), h]
    simp only [execute_checked hb fonts (Clips.start _) hfit, Option.bind_eq_bind, Option.bind_some, Id.run_bind]
    cases (execute .saturating fonts (canvasBounds width height) (start (canvasBounds width height)) dl.items).run <;> rfl
  · intro before after s hitems hs
    rw [hitems] at hfit
    obtain ⟨hclips, hlen, -⟩ := clips_of_execute hfit hs
    exact ⟨_, checkItems_eq_ok.2 ⟨(ItemsFit_append.1 hfit).1, rfl⟩, by rw [hclips.length_eq, hlen]⟩
  · intro before after s hitems hs
    rw [hitems] at hfit
    obtain ⟨hclips, -, hpop, -⟩ := clips_of_execute hfit hs
    have hopen : (openClips before).length ≠ 0 := hpop
    rw [hclips.length_eq]
    omega

/-- A border that reaches out of the clip around it. -/
def sample : DisplayList where
  items := [.pushClip ⟨.zero, ⟨.fromPx 100, .fromPx 100⟩⟩,
    .border ⟨⟨.fromPx 50, .fromPx 50⟩, ⟨.fromPx 100, .fromPx 100⟩⟩ (.uniform (.fromPx 60)) (.uniform .black), .popClip]
  bounds := ⟨.zero, ⟨.fromPx 800, .fromPx 600⟩⟩

/-- That list is executed exactly. -/
theorem rasterize_exact_sample : validate sample (canvasBounds 800 600) = .ok () ∧ Exact (fun _ => none) sample 800 600 :=
  ⟨by decide +kernel, rasterize_exact _ sample 800 600 (by decide) (by decide) (by decide +kernel)⟩

/-! ## Clipping -/

/-- A point is visible after some items: it is in the canvas and in every clip that is still open. -/
def Visible (bounds : Rect) (before : List DisplayItem) (x y : ℝ) : Prop :=
  Covers bounds x y ∧ ∀ rect ∈ openClips before, Covers rect x y

/-- What is drawn of an item is what is visible of it. -/
structure ClipsPoints (fonts : FontDb) (bounds : Rect) (before : List DisplayItem) (item : DisplayItem) (s : RasterState) :
    Prop where
  /-- The fill of a rect of the item covers what is visible of it. -/
  fills : ∀ strip ∈ filledRects item, strip.2.a ≠ 0 → ∀ x y,
    (∃ draw ∈ (fill .saturating strip.1 strip.2 (s.clip bounds)).run, draw.Fills x y) ↔
      Covers strip.1 x y ∧ Visible bounds before x y
  /-- The rects of a border are what is nearer to an edge than the width of the border there. -/
  border : ∀ rect widths colors, item = .border rect widths colors → ∀ x y,
    (∃ strip ∈ filledRects item, Covers strip.1 x y) ↔
      Covers rect x y ∧ (y < (rect.origin.y.units + widths.top.units : Int) ∨
        (rect.origin.y.units + rect.size.h.units - widths.bottom.units : Int) ≤ y ∨
        x < (rect.origin.x.units + widths.left.units : Int) ∨
        (rect.origin.x.units + rect.size.w.units - widths.right.units : Int) ≤ x)
  /-- An item other than a run makes these fills and nothing else. -/
  draws : ∀ s', (step .saturating fonts bounds s item).run = .ok s' → (∀ run, item ≠ .text run) →
    s'.draws = s.draws ++ (fillAll .saturating (s.clip bounds) (filledRects item)).run
  /-- The pixel clip contains the pixels that are visible as a whole. -/
  pixels : ∀ i j, (∃ pixels, (pixelClip .saturating (s.clip bounds)).run = some pixels ∧ pixels.Contains i j) ↔
    ∀ x y, InPixel i j x y → Visible bounds before x y
  /-- A run is blitted with this clip. -/
  blits : ∀ run s', item = .text run → (step .saturating fonts bounds s item).run = .ok s' →
    ∃ draws, s'.draws = s.draws ++ draws ∧ ∀ draw ∈ draws, ∃ glyph penX penY pixels,
      draw = .blit run.font run.size glyph penX penY run.color pixels ∧
        (pixelClip .saturating (s.clip bounds)).run = some pixels
  /-- Where no point is visible nothing is drawn. -/
  suppressed : (∀ x y, ¬Visible bounds before x y) → ∀ s', (step .saturating fonts bounds s item).run = .ok s' →
    s'.draws = s.draws

/-- What is drawn of an item of a list that the validator accepts is what is visible of it after the items before it. -/
theorem rasterize_clips (fonts : FontDb) (dl : DisplayList) (width height : Nat) (hw : 1 ≤ width ∧ width ≤ 16384)
    (hh : 1 ≤ height ∧ height ≤ 16384) (h : validate dl (canvasBounds width height) = .ok ())
    (before : List DisplayItem) (item : DisplayItem) (after : List DisplayItem) (hitems : dl.items = before ++ item :: after)
    (s : RasterState)
    (hs : (execute .saturating fonts (canvasBounds width height) (start (canvasBounds width height)) before).run = .ok s) :
    ClipsPoints fonts (canvasBounds width height) before item s := by
  have hb := isCanvas hw hh
  have hfit := itemsFit_of_validate h
  rw [hitems] at hfit
  obtain ⟨hclips, -, hi, -⟩ := clips_of_execute hfit hs
  have hclip := hclips.inCanvas hb
  have hvisible : ∀ x y, Covers (s.clip (canvasBounds width height)) x y ↔ Visible (canvasBounds width height) before x y :=
    hclips.covers hb
  have hrects := filledRects_fit hi
  refine ⟨?_, ?_, ?_, ?_, ?_, ?_⟩
  · intro strip hstrip ha x y
    rw [(fill_spec hb (hrects strip hstrip) hclip strip.2).2 ha x y, hvisible]
  · rintro rect widths colors rfl x y
    have hr := rectIsValid_iff.1 hi.1.1
    have hcovers := covers_strips hr (clampWidths_fit hr widths) colors x y
    rw [clampWidths_of_valid hi.2] at hcovers
    rw [filledRects, borderStrips_saturating, clampWidths_of_valid hi.2]
    exact hcovers
  · exact fun s' hs' hrun => step_draws hs' hrun
  · intro i j
    rw [pixelClip_contains (hclip.fits hb)]
    simp only [hvisible]
  · rintro run s' rfl hs'
    exact step_blits hs'
  · intro hno s' hs'
    have hnone : ∀ x y, ¬Covers (s.clip (canvasBounds width height)) x y := fun x y hc => hno x y ((hvisible x y).1 hc)
    by_cases hrun : ∃ run, item = .text run
    · obtain ⟨run, rfl⟩ := hrun
      obtain ⟨draws, hdraws, hblits⟩ := step_blits hs'
      have hempty : draws = [] := by
        refine List.eq_nil_iff_forall_not_mem.2 ?_
        intro draw hdraw
        obtain ⟨-, -, -, pixels, -, hpixels⟩ := hblits draw hdraw
        rw [pixelClip_eq_none (hclip.fits hb) hnone] at hpixels
        cases hpixels
      rw [hdraws, hempty, List.append_nil]
    · rw [step_draws hs' fun run hitem => hrun ⟨run, hitem⟩, fillAll_eq_nil hb hclip hnone hrects, List.append_nil]

/-- What is drawn of that border is what is visible of it. -/
theorem rasterize_clips_sample : ClipsPoints (fun _ => none) (canvasBounds 800 600)
    [.pushClip ⟨.zero, ⟨.fromPx 100, .fromPx 100⟩⟩]
    (.border ⟨⟨.fromPx 50, .fromPx 50⟩, ⟨.fromPx 100, .fromPx 100⟩⟩ (.uniform (.fromPx 60)) (.uniform .black))
    ⟨[canvasBounds 800 600, ⟨.zero, ⟨.fromPx 100, .fromPx 100⟩⟩], []⟩ :=
  rasterize_clips _ sample 800 600 (by decide) (by decide) (by decide +kernel) _ _ [.popClip] rfl _ (by decide +kernel)

end Gfx

end ChromeLight
