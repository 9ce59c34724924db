import ChromeLight.Lemmas.Raster

/-!
# The strips of a border

Where the top and the bottom width of a border fit into its rect, and so do the left and the right one, the strips it is filled
with tile what the inset leaves of the rect (`borderStrips_tile`): they do not overlap, and the corners are the top and the bottom
strip's. Any clip keeps it that way, so that a translucent border is blended once wherever it is visible.
-/

namespace ChromeLight

open Paint (RectFits)

namespace Gfx

/-! ## Clipping a rect -/

/-- The overlap of a rect with any other one is inside it. -/
theorem overlap_within {a b : Rect} (ha : RectFits a)
    (hover : ¬(min a.right b.right ≤ max a.origin.x b.origin.x ∨ min a.bottom b.bottom ≤ max a.origin.y b.origin.y)) :
    Within a (intersect .saturating a b).run := by
  have hright := units_right ha
  have hbottom := units_bottom ha
  obtain ⟨hx, hy⟩ := subFits_of_overlap ha hover
  have hover' := hover
  simp only [Au.le_iff, Au.units_min, Au.units_max, not_or] at hover
  rw [intersect_saturating, if_neg hover']
  constructor <;>
    simp only [hx.units_saturatingSub, hy.units_saturatingSub, Au.units_min, Au.units_max] <;> omega

/-- The color of a call. -/
def Draw.color : Draw → Rgba8
  | .fillRect _ _ _ _ color => color
  | .blit _ _ _ _ _ color _ => color

/-- What is filled of a rect is what the clip leaves of it. -/
theorem fills_fill {a : Rect} (ha : RectFits a) (own color : Rgba8) (clip : Rect) (x y : ℝ) :
    (∃ draw ∈ (fill .saturating a own clip).run, draw.color = color ∧ draw.Fills x y) ↔
      own = color ∧ own.a ≠ 0 ∧ Covers a x y ∧ Encloses clip x y := by
  rw [← intersect_covers ha, fill_saturating]
  by_cases hown : own.a = 0
  · rw [if_pos hown]
    exact iff_of_false (by simp) fun h => h.2.1 hown
  rw [if_neg hown]
  by_cases hempty : (intersect .saturating a clip).run.isEmpty = true
  · rw [if_pos hempty]
    exact iff_of_false (by simp) fun h => not_covers_of_isEmpty hempty x y h.2.2
  rw [if_neg hempty]
  have hover : ¬(min a.right clip.right ≤ max a.origin.x clip.origin.x ∨
      min a.bottom clip.bottom ≤ max a.origin.y clip.origin.y) := by
    intro hover
    rw [intersect_saturating, if_pos hover] at hempty
    exact hempty rfl
  have hfits := (overlap_within ha hover).fits ha
  rw [← fills_toSkia hfits own x y]
  simp only [List.mem_singleton, exists_eq_left]
  exact and_congr_right fun _ => (and_iff_right hown).symm

/-- A rect is filled with one call at most. -/
theorem fill_pairwise (R : Draw → Draw → Prop) (a : Rect) (color : Rgba8) (clip : Rect) :
    (fill .saturating a color clip).run.Pairwise R := by
  rw [fill_saturating]
  split
  · exact .nil
  · split
    · exact .nil
    · exact List.pairwise_singleton R _

theorem fillAll_eq_flatMap (clip : Rect) (strips : List (Rect × Rgba8)) :
    (fillAll .saturating clip strips).run = strips.flatMap fun strip => (fill .saturating strip.1 strip.2 clip).run := by
  induction strips with
  | nil => rfl
  | cons strip strips ih =>
    rw [List.flatMap_cons, ← ih]
    rfl

/-! ## Tilings -/

/-- Widths that fit side by side into a rect whose far edges are exact. -/
structure BorderFits (rect : Rect) (widths : Sides Au) : Prop where
  top : 0 ≤ widths.top.units
  right : 0 ≤ widths.right.units
  bottom : 0 ≤ widths.bottom.units
  left : 0 ≤ widths.left.units
  vertical : widths.top.units + widths.bottom.units ≤ rect.size.h.units
  horizontal : widths.left.units + widths.right.units ≤ rect.size.w.units
  farX : rect.origin.x.AddFits rect.size.w
  farY : rect.origin.y.AddFits rect.size.h

/-- The points a border leaves free: the rect without its widths. -/
def Inset (rect : Rect) (widths : Sides Au) (x y : ℝ) : Prop :=
  InSpan (rect.origin.x.units + widths.left.units) (rect.origin.x.units + rect.size.w.units - widths.right.units) x ∧
    InSpan (rect.origin.y.units + widths.top.units) (rect.origin.y.units + rect.size.h.units - widths.bottom.units) y

/-- No point is covered twice. -/
def Apart (strips : List (Rect × Rgba8)) : Prop :=
  strips.Pairwise fun s t => ∀ x y, ¬(Covers s.1 x y ∧ Covers t.1 x y)

namespace BorderFits

variable {rect : Rect} {widths : Sides Au} (h : BorderFits rect widths)
include h

theorem fits : RectFits rect := by
  obtain ⟨ht, hr, hb, hl, hv, hh, hx, hy⟩ := h
  exact ⟨by omega, by omega, hx, hy⟩

theorem widthsFit : WidthsFit rect widths := by
  obtain ⟨ht, hr, hb, hl, hv, hh, -, -⟩ := h
  exact ⟨⟨ht, by omega⟩, ⟨hr, by omega⟩, ⟨hb, by omega⟩, hl, by omega⟩

/-- The widths are painted as they are. -/
theorem clampWidths_eq : clampWidths rect widths = widths := by
  have hfit := h.widthsFit
  refine clampWidths_of_valid (decide_eq_true ?_)
  exact ⟨hfit.top.1, hfit.right.1, hfit.bottom.1, hfit.left.1, hfit.top.2, hfit.bottom.2, hfit.left.2, hfit.right.2⟩

/-- The strips cover the rect without its inset. -/
theorem covers_iff (colors : Sides Rgba8) (x y : ℝ) :
    (∃ strip ∈ strips rect widths colors, Covers strip.1 x y) ↔ Covers rect x y ∧ ¬Inset rect widths x y := by
  rw [covers_strips h.fits h.widthsFit]
  refine and_congr_right fun _ => ?_
  simp only [Inset, InSpan, not_and_or, not_le, not_lt]
  tauto

/-- The strips do not overlap: the left and the right one are between the top and the bottom one. -/
theorem disjoint (colors : Sides Rgba8) : Apart (strips rect widths colors) := by
  obtain ⟨h1, h2, h3, h4⟩ := strips_units h.fits h.widthsFit
  obtain ⟨ht, hr, hb, hl, hv, hh, -, -⟩ := h
  -- two spans that follow each other have no point in common
  have sep : ∀ {lo hi lo' hi' : Int} {z : ℝ}, hi ≤ lo' → InSpan lo hi z → InSpan lo' hi' z → False := by
    intro lo hi lo' hi' z hle hz hz'
    have hempty : ¬InSpan lo' hi z := not_inSpan hle z
    exact hempty ⟨hz'.1, hz.2⟩
  have outer : ∀ (x y : ℝ), ¬(Covers ⟨rect.origin, ⟨rect.size.w, widths.top⟩⟩ x y ∧
      Covers ⟨⟨rect.origin.x, rect.bottom.saturatingSub widths.bottom⟩, ⟨rect.size.w, widths.bottom⟩⟩ x y) := by
    rintro x y ⟨⟨-, htop⟩, -, hbottom⟩
    exact sep (by simp only [h1]; omega) htop hbottom
  unfold Apart
  simp only [strips]
  split
  · simp only [List.pairwise_cons, List.mem_cons, List.not_mem_nil, or_false, forall_eq, false_implies, implies_true,
      List.Pairwise.nil, and_true]
    exact outer
  · simp only [List.cons_append, List.nil_append, List.pairwise_cons, List.mem_cons, List.not_mem_nil, or_false,
      forall_eq_or_imp, forall_eq, false_implies, implies_true, List.Pairwise.nil, and_true]
    refine ⟨⟨outer, ?_, ?_⟩, ⟨?_, ?_⟩, ?_⟩
    · rintro x y ⟨⟨-, htop⟩, -, hband⟩
      exact sep (by simp only [h2]; omega) htop hband
    · rintro x y ⟨⟨-, htop⟩, -, hband⟩
      exact sep (by simp only [h2]; omega) htop hband
    · rintro x y ⟨⟨-, hbottom⟩, -, hband⟩
      exact sep (by simp only [h1, h2, h3]; omega) hband hbottom
    · rintro x y ⟨⟨-, hbottom⟩, -, hband⟩
      exact sep (by simp only [h1, h2, h3]; omega) hband hbottom
    · rintro x y ⟨⟨hleft, -⟩, hright, -⟩
      exact sep (by simp only [h4]; omega) hleft hright

end BorderFits

/-- The strips of a border tile what its inset leaves of the rect, and the fills what a clip leaves of the strips. -/
structure Tiles (rect : Rect) (widths : Sides Au) (colors : Sides Rgba8) (clip : Rect) : Prop where
  disjoint : Apart (borderStrips .saturating rect widths colors).run
  covers : ∀ x y, (∃ strip ∈ (borderStrips .saturating rect widths colors).run, Covers strip.1 x y) ↔
    Covers rect x y ∧ ¬Inset rect widths x y
  /-- The whole width of the rect is the top and the bottom strip's. -/
  corners : ∃ top bottom sides, (borderStrips .saturating rect widths colors).run =
      (top, colors.top) :: (bottom, colors.bottom) :: sides ∧
    (∀ x y, Covers top x y ↔ Covers rect x y ∧ y < (rect.origin.y.units + widths.top.units : Int)) ∧
    ∀ x y, Covers bottom x y ↔
      Covers rect x y ∧ (rect.origin.y.units + rect.size.h.units - widths.bottom.units : Int) ≤ y
  /-- The clipped strips are disjoint as well, and cover what the clip leaves. -/
  clipped : Apart ((borderStrips .saturating rect widths colors).run.map fun strip =>
      ((intersect .saturating strip.1 clip).run, strip.2)) ∧
    ∀ x y, (∃ strip ∈ (borderStrips .saturating rect widths colors).run,
      Covers (intersect .saturating strip.1 clip).run x y) ↔
        Covers rect x y ∧ ¬Inset rect widths x y ∧ Encloses clip x y
  /-- No point is filled twice. -/
  once : (fillBorder .saturating rect widths colors clip).run.Pairwise fun d e => ∀ x y, ¬(d.Fills x y ∧ e.Fills x y)
  /-- The points of a strip are filled with its color, unless it is transparent. -/
  fills : ∀ color x y, (∃ draw ∈ (fillBorder .saturating rect widths colors clip).run, draw.color = color ∧ draw.Fills x y) ↔
    ∃ strip ∈ (borderStrips .saturating rect widths colors).run,
      strip.2 = color ∧ strip.2.a ≠ 0 ∧ Covers strip.1 x y ∧ Encloses clip x y

/-- Borders that fit tile what their inset leaves, with any clip. -/
theorem borderStrips_tile (rect : Rect) (widths : Sides Au) (colors : Sides Rgba8) (clip : Rect)
    (h : BorderFits rect widths) : Tiles rect widths colors clip := by
  have hstrips : (borderStrips .saturating rect widths colors).run = strips rect widths colors := by
    rw [borderStrips_saturating, h.clampWidths_eq]
  have hwithin := strips_within h.fits h.widthsFit colors
  have hfits : ∀ strip ∈ strips rect widths colors, RectFits strip.1 := fun strip hs => (hwithin strip hs).fits h.fits
  have hdraws : (fillBorder .saturating rect widths colors clip).run =
      (strips rect widths colors).flatMap fun strip => (fill .saturating strip.1 strip.2 clip).run := by
    rw [← hstrips, ← fillAll_eq_flatMap]
    rfl
  have hfilled : ∀ color x y, (∃ draw ∈ (fillBorder .saturating rect widths colors clip).run,
      draw.color = color ∧ draw.Fills x y) ↔ ∃ strip ∈ strips rect widths colors,
        strip.2 = color ∧ strip.2.a ≠ 0 ∧ Covers strip.1 x y ∧ Encloses clip x y := by
    intro color x y
    rw [hdraws]
    constructor
    · rintro ⟨draw, hdraw, hfill⟩
      obtain ⟨strip, hs, hin⟩ := List.mem_flatMap.1 hdraw
      exact ⟨strip, hs, (fills_fill (hfits strip hs) strip.2 color clip x y).1 ⟨draw, hin, hfill⟩⟩
    · rintro ⟨strip, hs, hpoint⟩
      obtain ⟨draw, hin, hfill⟩ := (fills_fill (hfits strip hs) strip.2 color clip x y).2 hpoint
      exact ⟨draw, List.mem_flatMap.2 ⟨strip, hs, hin⟩, hfill⟩
  obtain ⟨h1, -, -, -⟩ := strips_units h.fits h.widthsFit
  refine ⟨?_, ?_, ?_, ⟨?_, ?_⟩, ?_, ?_⟩
  · rw [hstrips]
    exact h.disjoint colors
  · rw [hstrips]
    exact h.covers_iff colors
  · have hsplit : ∃ sides, strips rect widths colors = (⟨rect.origin, ⟨rect.size.w, widths.top⟩⟩, colors.top) ::
        (⟨⟨rect.origin.x, rect.bottom.saturatingSub widths.bottom⟩, ⟨rect.size.w, widths.bottom⟩⟩, colors.bottom) :: sides := by
      simp only [strips]
      split
      · exact ⟨_, rfl⟩
      · exact ⟨_, rfl⟩
    obtain ⟨sides, hsides⟩ := hsplit
    rw [hstrips]
    refine ⟨_, _, sides, hsides, ?_, ?_⟩
    · intro x y
      have htop := hwithin _ (strips_top rect widths colors)
      refine ⟨fun hp => ⟨htop.covers hp, hp.2.2⟩, ?_⟩
      rintro ⟨hp, hy⟩
      exact ⟨hp.1, hp.2.1, hy⟩
    · intro x y
      have hbottom := hwithin _ (strips_bottom rect widths colors)
      refine ⟨fun hp => ⟨hbottom.covers hp, h1 ▸ hp.2.1⟩, ?_⟩
      rintro ⟨hp, hy⟩
      refine ⟨hp.1, h1 ▸ hy, ?_⟩
      simp only [h1, Int.sub_add_cancel]
      exact hp.2.2
  · rw [hstrips, Apart, List.pairwise_map]
    refine (h.disjoint colors).imp_of_mem ?_
    rintro s t hs ht hst x y ⟨hx, hy⟩
    rw [intersect_covers (hfits s hs)] at hx
    rw [intersect_covers (hfits t ht)] at hy
    exact hst x y ⟨hx.1, hy.1⟩
  · intro x y
    rw [hstrips, ← and_assoc, ← h.covers_iff colors]
    constructor
    · rintro ⟨strip, hs, hp⟩
      rw [intersect_covers (hfits strip hs)] at hp
      exact ⟨⟨strip, hs, hp.1⟩, hp.2⟩
    · rintro ⟨⟨strip, hs, hp⟩, hclip⟩
      exact ⟨strip, hs, (intersect_covers (hfits strip hs) clip x y).2 ⟨hp, hclip⟩⟩
  · rw [hdraws, List.pairwise_flatMap]
    refine ⟨fun strip _ => fill_pairwise _ strip.1 strip.2 clip, (h.disjoint colors).imp_of_mem ?_⟩
    rintro s t hs ht hst d hd e he x y ⟨hdx, hey⟩
    obtain ⟨-, -, hcs, -⟩ := (fills_fill (hfits s hs) s.2 _ clip x y).1 ⟨d, hd, rfl, hdx⟩
    obtain ⟨-, -, hct, -⟩ := (fills_fill (hfits t ht) t.2 _ clip x y).1 ⟨e, he, rfl, hey⟩
    exact hst x y ⟨hcs, hct⟩
  · rw [hstrips]
    exact hfilled

/-- A border of four widths, with a band between its top and its bottom, tiles its rect; as does one whose top and bottom widths meet
in the middle. -/
theorem borderStrips_tile_sample :
    (BorderFits ⟨.zero, ⟨.fromPx 10, .fromPx 9⟩⟩ ⟨.fromPx 2, .fromPx 1, .fromPx 3, .fromPx 4⟩ ∧
      Tiles ⟨.zero, ⟨.fromPx 10, .fromPx 9⟩⟩ ⟨.fromPx 2, .fromPx 1, .fromPx 3, .fromPx 4⟩ (.uniform ⟨255, 0, 0, 128⟩)
        ⟨⟨.fromPx 1, .fromPx (-3)⟩, ⟨.fromPx 5, .fromPx 9⟩⟩) ∧
    BorderFits ⟨.zero, ⟨.fromPx 10, .fromPx 4⟩⟩ (.uniform (.fromPx 2)) ∧
      Tiles ⟨.zero, ⟨.fromPx 10, .fromPx 4⟩⟩ (.uniform (.fromPx 2)) (.uniform ⟨255, 0, 0, 128⟩)
        ⟨⟨.fromPx 1, .fromPx (-3)⟩, ⟨.fromPx 5, .fromPx 5⟩⟩ :=
  have hbanded : BorderFits ⟨.zero, ⟨.fromPx 10, .fromPx 9⟩⟩ ⟨.fromPx 2, .fromPx 1, .fromPx 3, .fromPx 4⟩ :=
    ⟨by decide, by decide, by decide, by decide, by decide, by decide, by decide, by decide⟩
  have hfits : BorderFits ⟨.zero, ⟨.fromPx 10, .fromPx 4⟩⟩ (.uniform (.fromPx 2)) :=
    ⟨by decide, by decide, by decide, by decide, by decide, by decide, by decide, by decide⟩
  ⟨⟨hbanded, borderStrips_tile _ _ _ _ hbanded⟩, hfits, borderStrips_tile _ _ _ _ hfits⟩

end Gfx

end ChromeLight
