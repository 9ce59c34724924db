import Mathlib.Data.Real.Basic
import ChromeLight.Raster
import ChromeLight.Theorems.Clip
import ChromeLight.Theorems.Culling

/-!
# Exact arithmetic in the rasterizer

A rect that the validator accepts, and a clip inside the canvas: what each function of the rasterizer computes from them, it
computes without leaving the range of app units, so that checked arithmetic gives what saturating arithmetic gives. The rects
it comes to cover the points they should (`intersect_spec`).
-/

namespace ChromeLight

open Paint (RectFits rectIsValid_iff)

namespace Au

variable {a b : Au}

/-- The difference is an `i32`: subtracting does not saturate. -/
def SubFits (a b : Au) : Prop := -2147483648 ≤ a.units - b.units ∧ a.units - b.units ≤ 2147483647

/-- A difference that fits is exact. -/
theorem SubFits.units_saturatingSub (h : SubFits a b) : (a.saturatingSub b).units = a.units - b.units := by
  obtain ⟨h1, h2⟩ := h
  rw [Au.units_saturatingSub]
  omega

/-- A sum that fits is the same checked as saturated. -/
theorem AddFits.checkedAdd_eq (h : AddFits a b) : a.checkedAdd b = some (a.saturatingAdd b) := by
  have hsum : a.checkedAdd b = some ⟨a.units + b.units, h⟩ := dif_pos h
  rw [hsum]
  exact congrArg some (ext_units h.units_saturatingAdd.symm)

/-- A difference that fits is the same checked as saturated. -/
theorem SubFits.checkedSub_eq (h : SubFits a b) : a.checkedSub b = some (a.saturatingSub b) := by
  have hdiff : a.checkedSub b = some ⟨a.units - b.units, h⟩ := dif_pos h
  rw [hdiff]
  exact congrArg some (ext_units h.units_saturatingSub.symm)

end Au

namespace Gfx

/-! ## Points -/

/-- A coordinate in a half-open span. -/
def InSpan (lo hi : Int) (x : ℝ) : Prop := (lo : ℝ) ≤ x ∧ x < (hi : ℝ)

/-- A rect covers a point, in sixtieths of a pixel: its left and top edges are its own, its right and bottom edges are not. -/
def Covers (r : Rect) (x y : ℝ) : Prop :=
  InSpan r.origin.x.units (r.origin.x.units + r.size.w.units) x ∧
    InSpan r.origin.y.units (r.origin.y.units + r.size.h.units) y

/-- A point is in the overlap of two spans exactly if it is in both. -/
theorem inSpan_inter (l l' r r' : Int) (x : ℝ) :
    InSpan (max l l') (min r r') x ↔ InSpan l r x ∧ InSpan l' r' x := by
  simp only [InSpan, Int.cast_max, Int.cast_min, max_le_iff, lt_min_iff]
  exact and_and_and_comm

/-- A span that ends before it starts has no points. -/
theorem not_inSpan {lo hi : Int} (h : hi ≤ lo) (x : ℝ) : ¬InSpan lo hi x := by
  rintro ⟨h1, h2⟩
  have : (hi : ℝ) ≤ lo := Int.cast_le.2 h
  exact absurd (lt_of_lt_of_le h2 this) (not_lt.2 h1)

/-- An empty rect covers nothing. -/
theorem not_covers_of_isEmpty {r : Rect} (h : r.isEmpty = true) (x y : ℝ) : ¬Covers r x y := by
  simp only [Rect.isEmpty, Bool.or_eq_true, decide_eq_true_eq, Au.le_iff, Au.units_zero] at h
  rintro ⟨hx, hy⟩
  rcases h with h | h
  · exact not_inSpan (by omega) x hx
  · exact not_inSpan (by omega) y hy

/-- A rect that is not empty covers its corner. -/
theorem covers_origin {r : Rect} (h : ¬r.isEmpty = true) : Covers r r.origin.x.units r.origin.y.units := by
  simp only [Rect.isEmpty, Bool.or_eq_true, decide_eq_true_eq, Au.le_iff, Au.units_zero, not_or, not_le] at h
  exact ⟨⟨le_rfl, Int.cast_lt.2 (by omega)⟩, le_rfl, Int.cast_lt.2 (by omega)⟩

/-! ## Rects in the canvas -/

/-- The bounds of a canvas of at most 16384 pixels in both directions. -/
structure IsCanvas (bounds : Rect) : Prop where
  origin : bounds.origin = .zero
  width : 0 < bounds.size.w.units ∧ bounds.size.w.units ≤ 983040
  height : 0 < bounds.size.h.units ∧ bounds.size.h.units ≤ 983040

/-- A rect inside the canvas. -/
structure InCanvas (bounds r : Rect) : Prop where
  left : 0 ≤ r.origin.x.units
  top : 0 ≤ r.origin.y.units
  width : 0 ≤ r.size.w.units
  height : 0 ≤ r.size.h.units
  right : r.origin.x.units + r.size.w.units ≤ bounds.size.w.units
  bottom : r.origin.y.units + r.size.h.units ≤ bounds.size.h.units

variable {bounds : Rect}

/-- The canvas is inside itself. -/
theorem IsCanvas.inCanvas (hb : IsCanvas bounds) : InCanvas bounds bounds := by
  have hx : bounds.origin.x.units = 0 := by rw [hb.origin]; rfl
  have hy : bounds.origin.y.units = 0 := by rw [hb.origin]; rfl
  have := hb.width
  have := hb.height
  exact ⟨by omega, by omega, by omega, by omega, by omega, by omega⟩

/-- The empty rect is inside the canvas. -/
theorem IsCanvas.zero_inCanvas (hb : IsCanvas bounds) : InCanvas bounds .zero := by
  have := hb.width
  have := hb.height
  refine ⟨Int.le_refl 0, Int.le_refl 0, Int.le_refl 0, Int.le_refl 0, ?_, ?_⟩
  · show (0 : Int) + 0 ≤ _
    omega
  · show (0 : Int) + 0 ≤ _
    omega

/-- A rect inside the canvas has exact edges. -/
theorem InCanvas.fits (hb : IsCanvas bounds) {r : Rect} (h : InCanvas bounds r) : RectFits r := by
  have := hb.width
  have := hb.height
  have := h.left
  have := h.top
  have := h.right
  have := h.bottom
  have := h.width
  have := h.height
  refine ⟨by omega, by omega, ⟨by omega, by omega⟩, by omega, by omega⟩

/-- An exact right edge is the same checked as saturated. -/
theorem right_checked {r : Rect} (h : RectFits r) : Arith.right .checked r = some r.right := h.2.2.1.checkedAdd_eq

/-- An exact bottom edge is the same checked as saturated. -/
theorem bottom_checked {r : Rect} (h : RectFits r) : Arith.bottom .checked r = some r.bottom := h.2.2.2.checkedAdd_eq

/-! ## Intersections -/

/-- The intersection, without the checks. -/
theorem intersect_saturating (a b : Rect) : (intersect .saturating a b).run =
    if min a.right b.right ≤ max a.origin.x b.origin.x ∨ min a.bottom b.bottom ≤ max a.origin.y b.origin.y then .zero
    else ⟨⟨max a.origin.x b.origin.x, max a.origin.y b.origin.y⟩,
      ⟨(min a.right b.right).saturatingSub (max a.origin.x b.origin.x),
        (min a.bottom b.bottom).saturatingSub (max a.origin.y b.origin.y)⟩⟩ := by
  rfl

/-- The units of an exact right edge. -/
theorem units_right {r : Rect} (h : RectFits r) : r.right.units = r.origin.x.units + r.size.w.units :=
  h.2.2.1.units_saturatingAdd

/-- The units of an exact bottom edge. -/
theorem units_bottom {r : Rect} (h : RectFits r) : r.bottom.units = r.origin.y.units + r.size.h.units :=
  h.2.2.2.units_saturatingAdd

/-- The point is between the edges of a rect, as they are computed. -/
def Encloses (r : Rect) (x y : ℝ) : Prop :=
  InSpan r.origin.x.units r.right.units x ∧ InSpan r.origin.y.units r.bottom.units y

/-- A rect with exact edges covers what lies between them. -/
theorem encloses_iff_covers {r : Rect} (h : RectFits r) (x y : ℝ) : Encloses r x y ↔ Covers r x y := by
  unfold Encloses
  rw [units_right h, units_bottom h]
  rfl

/-- Where a rect and any other one overlap, the size of the overlap is computed exactly. -/
theorem subFits_of_overlap {a b : Rect} (ha : RectFits a)
    (hover : ¬(min a.right b.right ≤ max a.origin.x b.origin.x ∨ min a.bottom b.bottom ≤ max a.origin.y b.origin.y)) :
    (min a.right b.right).SubFits (max a.origin.x b.origin.x) ∧
      (min a.bottom b.bottom).SubFits (max a.origin.y b.origin.y) := by
  have hright := units_right ha
  have hbottom := units_bottom ha
  have := a.size.w.isI32
  have := a.size.h.isI32
  obtain ⟨hw, hh, -⟩ := ha
  simp only [Au.le_iff, Au.units_min, Au.units_max, not_or] at hover
  simp only [Au.SubFits, Au.units_min, Au.units_max]
  omega

/-- Clipping a rect keeps the points between the edges of the clip, whatever the clip is. -/
theorem intersect_covers {a : Rect} (ha : RectFits a) (b : Rect) (x y : ℝ) :
    Covers (intersect .saturating a b).run x y ↔ Covers a x y ∧ Encloses b x y := by
  rw [← encloses_iff_covers ha]
  have hboth : Encloses a x y ∧ Encloses b x y ↔
      InSpan (max a.origin.x b.origin.x).units (min a.right b.right).units x ∧
        InSpan (max a.origin.y b.origin.y).units (min a.bottom b.bottom).units y := by
    simp only [Au.units_max, Au.units_min, inSpan_inter]
    exact and_and_and_comm
  rw [hboth]
  by_cases hover : min a.right b.right ≤ max a.origin.x b.origin.x ∨ min a.bottom b.bottom ≤ max a.origin.y b.origin.y
  · rw [intersect_saturating, if_pos hover]
    refine iff_of_false (not_covers_of_isEmpty rfl x y) ?_
    rintro ⟨hx, hy⟩
    rcases hover with hover | hover
    · exact not_inSpan (Au.le_iff.1 hover) x hx
    · exact not_inSpan (Au.le_iff.1 hover) y hy
  · obtain ⟨hx, hy⟩ := subFits_of_overlap ha hover
    have hend : ∀ l r : Int, l + (r - l) = r := fun l r => by omega
    rw [intersect_saturating, if_neg hover]
    simp only [Covers, hx.units_saturatingSub, hy.units_saturatingSub, hend]

/-- Where both rects reach, they reach inside the canvas. -/
theorem overlap_spec (hb : IsCanvas bounds) {a b : Rect} (ha : RectFits a) (hb' : RectFits b)
    (hor : InCanvas bounds a ∨ InCanvas bounds b)
    (hover : ¬(min a.right b.right ≤ max a.origin.x b.origin.x ∨ min a.bottom b.bottom ≤ max a.origin.y b.origin.y)) :
    (min a.right b.right).SubFits (max a.origin.x b.origin.x) ∧ (min a.bottom b.bottom).SubFits (max a.origin.y b.origin.y) ∧
      InCanvas bounds ⟨⟨max a.origin.x b.origin.x, max a.origin.y b.origin.y⟩,
        ⟨(min a.right b.right).saturatingSub (max a.origin.x b.origin.x),
          (min a.bottom b.bottom).saturatingSub (max a.origin.y b.origin.y)⟩⟩ := by
  have hfits := subFits_of_overlap ha hover
  simp only [Au.le_iff, Au.units_min, Au.units_max, units_right ha, units_right hb', units_bottom ha, units_bottom hb',
    not_or] at hover
  obtain ⟨hx, hy⟩ := hover
  have := hb.width
  have := hb.height
  refine ⟨hfits.1, hfits.2, ?_⟩
  have hw := hfits.1.units_saturatingSub
  have hh := hfits.2.units_saturatingSub
  simp only [Au.units_min, Au.units_max, units_right ha, units_right hb', units_bottom ha, units_bottom hb'] at hw hh
  rcases hor with ⟨h1, h2, h3, h4, h5, h6⟩ | ⟨h1, h2, h3, h4, h5, h6⟩ <;>
    constructor <;> simp only [Au.units_max, hw, hh] <;> omega

/-- What the intersection of two rects is when one of them is inside the canvas. -/
theorem intersect_spec (hb : IsCanvas bounds) {a b : Rect} (ha : RectFits a) (hb' : RectFits b)
    (hor : InCanvas bounds a ∨ InCanvas bounds b) :
    intersect .checked a b = some (intersect .saturating a b).run ∧ InCanvas bounds (intersect .saturating a b).run ∧
      ∀ x y, Covers (intersect .saturating a b).run x y ↔ Covers a x y ∧ Covers b x y := by
  have hcovers : ∀ x y, Covers (intersect .saturating a b).run x y ↔ Covers a x y ∧ Covers b x y := by
    intro x y
    rw [intersect_covers ha, encloses_iff_covers hb']
  have hchecked : intersect .checked a b =
      if min a.right b.right ≤ max a.origin.x b.origin.x ∨ min a.bottom b.bottom ≤ max a.origin.y b.origin.y then some .zero
      else ((min a.right b.right).checkedSub (max a.origin.x b.origin.x)).bind fun w =>
        ((min a.bottom b.bottom).checkedSub (max a.origin.y b.origin.y)).bind fun h =>
          some ⟨⟨max a.origin.x b.origin.x, max a.origin.y b.origin.y⟩, ⟨w, h⟩⟩ := by
    simp only [intersect, right_checked ha, right_checked hb', bottom_checked ha, bottom_checked hb', Option.bind_eq_bind,
      Option.bind_some]
    rfl
  rw [hchecked, ← and_assoc]
  refine ⟨?_, hcovers⟩
  rw [intersect_saturating]
  by_cases hover : min a.right b.right ≤ max a.origin.x b.origin.x ∨ min a.bottom b.bottom ≤ max a.origin.y b.origin.y
  · rw [if_pos hover, if_pos hover]
    exact ⟨rfl, hb.zero_inCanvas⟩
  · rw [if_neg hover, if_neg hover]
    obtain ⟨hw, hh, hin⟩ := overlap_spec hb ha hb' hor hover
    refine ⟨?_, hin⟩
    rw [hw.checkedSub_eq, hh.checkedSub_eq]
    rfl

/-! ## Fills -/

/-- The points a call fills. -/
def Draw.Fills : Draw → ℝ → ℝ → Prop
  | .fillRect left top right bottom _, x, y => InSpan left.units right.units x ∧ InSpan top.units bottom.units y
  | .blit .., _, _ => False

/-- A rect with exact edges is drawn the same, checked or saturated. -/
theorem toSkia_checked {r : Rect} (h : RectFits r) (color : Rgba8) :
    toSkia .checked r color = some (toSkia .saturating r color).run := by
  simp only [toSkia, right_checked h, bottom_checked h, Option.bind_eq_bind, Option.bind_some]
  rfl

/-- A rect with exact edges is drawn where it covers. -/
theorem fills_toSkia {r : Rect} (h : RectFits r) (color : Rgba8) (x y : ℝ) :
    Draw.Fills (toSkia .saturating r color).run x y ↔ Covers r x y := by
  show InSpan _ r.right.units x ∧ InSpan _ r.bottom.units y ↔ _
  rw [units_right h, units_bottom h]
  rfl

/-- What is filled, without the checks. -/
theorem fill_saturating (rect : Rect) (color : Rgba8) (clip : Rect) : (fill .saturating rect color clip).run =
    if color.a = 0 then []
    else if (intersect .saturating rect clip).run.isEmpty then []
    else [(toSkia .saturating (intersect .saturating rect clip).run color).run] := rfl

/-- Filling a rect inside a clip that is inside the canvas is exact, and fills what both cover. -/
theorem fill_spec (hb : IsCanvas bounds) {rect clip : Rect} (hr : RectFits rect) (hc : InCanvas bounds clip) (color : Rgba8) :
    fill .checked rect color clip = some (fill .saturating rect color clip).run ∧
      (color.a ≠ 0 → ∀ x y, (∃ draw ∈ (fill .saturating rect color clip).run, draw.Fills x y) ↔
        Covers rect x y ∧ Covers clip x y) := by
  obtain ⟨hchecked, hin, hcovers⟩ := intersect_spec hb hr (hc.fits hb) (.inr hc)
  rw [fill_saturating]
  have hfits := hin.fits hb
  by_cases ha : color.a = 0
  · exact ⟨by rw [fill, if_pos ha, if_pos ha]; rfl, fun h => absurd ha h⟩
  · rw [fill, if_neg ha, if_neg ha, hchecked]
    by_cases hempty : (intersect .saturating rect clip).run.isEmpty
    · rw [if_pos hempty]
      refine ⟨if_pos hempty, ?_⟩
      intro _ x y
      rw [← hcovers]
      exact iff_of_false (by simp) (not_covers_of_isEmpty hempty x y)
    · rw [if_neg hempty]
      refine ⟨(if_neg hempty).trans ?_, fun _ x y => ?_⟩
      · rw [toSkia_checked hfits]
        rfl
      · rw [← hcovers, ← fills_toSkia hfits color x y]
        simp

/-- Nothing is filled inside a clip that covers nothing. -/
theorem fill_eq_nil (hb : IsCanvas bounds) {rect clip : Rect} (hr : RectFits rect) (hc : InCanvas bounds clip)
    (hno : ∀ x y, ¬Covers clip x y) (color : Rgba8) : (fill .saturating rect color clip).run = [] := by
  obtain ⟨-, -, hcovers⟩ := intersect_spec hb hr (hc.fits hb) (.inr hc)
  rw [fill_saturating]
  have hempty : (intersect .saturating rect clip).run.isEmpty = true := by
    by_contra h
    exact hno _ _ ((hcovers _ _).1 (covers_origin h)).2
  rw [if_pos hempty, ite_self]

/-- Inside a clip that covers nothing, nothing is filled. -/
theorem fillAll_eq_nil (hb : IsCanvas bounds) {clip : Rect} (hc : InCanvas bounds clip) (hno : ∀ x y, ¬Covers clip x y)
    {strips : List (Rect × Rgba8)} (hs : ∀ strip ∈ strips, RectFits strip.1) :
    (fillAll .saturating clip strips).run = [] := by
  induction strips with
  | nil => rfl
  | cons strip strips ih =>
    have hfill := fill_eq_nil hb (hs strip List.mem_cons_self) hc hno strip.2
    have hrest := ih fun strip h => hs strip (List.mem_cons_of_mem _ h)
    show (fill .saturating strip.1 strip.2 clip).run ++ (fillAll .saturating clip strips).run = []
    rw [hfill, hrest, List.append_nil]

/-- Rects with exact edges are filled the same, checked or saturated. -/
theorem fillAll_checked (hb : IsCanvas bounds) {clip : Rect} (hc : InCanvas bounds clip) {strips : List (Rect × Rgba8)}
    (hs : ∀ strip ∈ strips, RectFits strip.1) :
    fillAll .checked clip strips = some (fillAll .saturating clip strips).run := by
  induction strips with
  | nil => rfl
  | cons strip strips ih =>
    have hfill := (fill_spec hb (hs strip List.mem_cons_self) hc strip.2).1
    have hrest := ih fun strip h => hs strip (List.mem_cons_of_mem _ h)
    simp only [fillAll, hfill, hrest, Option.bind_eq_bind, Option.bind_some]
    rfl

/-! ## Borders -/

/-- A rect inside another one. -/
structure Within (r s : Rect) : Prop where
  width : 0 ≤ s.size.w.units
  height : 0 ≤ s.size.h.units
  left : r.origin.x.units ≤ s.origin.x.units
  top : r.origin.y.units ≤ s.origin.y.units
  right : s.origin.x.units + s.size.w.units ≤ r.origin.x.units + r.size.w.units
  bottom : s.origin.y.units + s.size.h.units ≤ r.origin.y.units + r.size.h.units

/-- A rect within one of exact edges has exact edges. -/
theorem Within.fits {r s : Rect} (h : Within r s) (hr : RectFits r) : RectFits s := by
  obtain ⟨hw, hh, hl, ht, hright, hbottom⟩ := h
  obtain ⟨-, -, ⟨hx0, hx1⟩, hy0, hy1⟩ := hr
  have := r.origin.x.isI32
  have := r.origin.y.isI32
  exact ⟨hw, hh, ⟨by omega, by omega⟩, by omega, by omega⟩

/-- A point of a span is in every longer one. -/
theorem InSpan.mono {lo hi lo' hi' : Int} {x : ℝ} (h : InSpan lo' hi' x) (hlo : lo ≤ lo') (hhi : hi' ≤ hi) : InSpan lo hi x :=
  ⟨(Int.cast_le.2 hlo).trans h.1, h.2.trans_le (Int.cast_le.2 hhi)⟩

/-- A rect covers what a rect within it covers. -/
theorem Within.covers {r s : Rect} (h : Within r s) {x y : ℝ} (hp : Covers s x y) : Covers r x y :=
  ⟨hp.1.mono h.left h.right, hp.2.mono h.top h.bottom⟩

/-- The widths a border is painted with: none is negative, and none larger than the rect. -/
def clampWidths (rect : Rect) (widths : Sides Au) : Sides Au where
  top := min (max widths.top .zero) (max rect.size.h .zero)
  right := min (max widths.right .zero) (max rect.size.w .zero)
  bottom := min (max widths.bottom .zero) (max rect.size.h .zero)
  left := min (max widths.left .zero) (max rect.size.w .zero)

/-- The strips of a border with those widths. -/
def strips (rect : Rect) (widths : Sides Au) (colors : Sides Rgba8) : List (Rect × Rgba8) :=
  let bandY := rect.origin.y.saturatingAdd widths.top
  let bandH := (rect.size.h.saturatingSub widths.top).saturatingSub widths.bottom
  let outer := [(⟨rect.origin, ⟨rect.size.w, widths.top⟩⟩, colors.top),
    (⟨⟨rect.origin.x, rect.bottom.saturatingSub widths.bottom⟩, ⟨rect.size.w, widths.bottom⟩⟩, colors.bottom)]
  if bandH ≤ .zero then outer
  else
    outer ++ [(⟨⟨rect.origin.x, bandY⟩, ⟨widths.left, bandH⟩⟩, colors.left),
      (⟨⟨rect.right.saturatingSub widths.right, bandY⟩, ⟨widths.right, bandH⟩⟩, colors.right)]

/-- The strips of a border, without the checks. -/
theorem borderStrips_saturating (rect : Rect) (widths : Sides Au) (colors : Sides Rgba8) :
    (borderStrips .saturating rect widths colors).run = strips rect (clampWidths rect widths) colors := by
  unfold borderStrips strips
  rfl

/-- The widths of an accepted border are those it is painted with. -/
theorem clampWidths_of_valid {rect : Rect} {widths : Sides Au} (h : borderWidthsValid rect widths = true) :
    clampWidths rect widths = widths := by
  simp only [borderWidthsValid, decide_eq_true_eq, ge_iff_le] at h
  obtain ⟨ht, hr, hb, hl, ht', hb', hl', hr'⟩ := h
  have clamp : ∀ {w extent : Au}, .zero ≤ w → w ≤ extent → min (max w .zero) (max extent .zero) = w := fun h0 h1 => by
    rw [max_eq_left h0, max_eq_left (h0.trans h1), min_eq_left h1]
  simp only [clampWidths, clamp ht ht', clamp hr hr', clamp hb hb', clamp hl hl']

/-- The first strip is the top one. -/
theorem strips_top (rect : Rect) (widths : Sides Au) (colors : Sides Rgba8) :
    (⟨rect.origin, ⟨rect.size.w, widths.top⟩⟩, colors.top) ∈ strips rect widths colors := by
  simp only [strips]
  split <;> exact List.mem_cons_self

/-- The bottom strip is one of them. -/
theorem strips_bottom (rect : Rect) (widths : Sides Au) (colors : Sides Rgba8) :
    (⟨⟨rect.origin.x, rect.bottom.saturatingSub widths.bottom⟩, ⟨rect.size.w, widths.bottom⟩⟩, colors.bottom) ∈
      strips rect widths colors := by
  simp only [strips]
  split <;> exact List.mem_cons_of_mem _ List.mem_cons_self

/-- With a band between top and bottom, the two strips at the sides are there as well. -/
theorem strips_sides {rect : Rect} {widths : Sides Au} (colors : Sides Rgba8)
    (hband : ¬(rect.size.h.saturatingSub widths.top).saturatingSub widths.bottom ≤ .zero) :
    (⟨⟨rect.origin.x, rect.origin.y.saturatingAdd widths.top⟩,
        ⟨widths.left, (rect.size.h.saturatingSub widths.top).saturatingSub widths.bottom⟩⟩, colors.left) ∈
      strips rect widths colors ∧
    (⟨⟨rect.right.saturatingSub widths.right, rect.origin.y.saturatingAdd widths.top⟩,
        ⟨widths.right, (rect.size.h.saturatingSub widths.top).saturatingSub widths.bottom⟩⟩, colors.right) ∈
      strips rect widths colors := by
  simp only [strips, if_neg hband]
  exact ⟨List.mem_append_right _ List.mem_cons_self,
    List.mem_append_right _ (List.mem_cons_of_mem _ List.mem_cons_self)⟩

/-- Widths that are not negative and no larger than the rect. -/
structure WidthsFit (rect : Rect) (widths : Sides Au) : Prop where
  top : 0 ≤ widths.top.units ∧ widths.top.units ≤ rect.size.h.units
  right : 0 ≤ widths.right.units ∧ widths.right.units ≤ rect.size.w.units
  bottom : 0 ≤ widths.bottom.units ∧ widths.bottom.units ≤ rect.size.h.units
  left : 0 ≤ widths.left.units ∧ widths.left.units ≤ rect.size.w.units

/-- Clamped widths fit into the rect. -/
theorem clampWidths_fit {rect : Rect} (hr : RectFits rect) (widths : Sides Au) : WidthsFit rect (clampWidths rect widths) := by
  have hw := hr.1
  have hh := hr.2.1
  constructor <;> simp only [clampWidths, Au.units_min, Au.units_max, Au.units_zero] <;> omega

section

variable {rect : Rect} {widths : Sides Au} (hr : RectFits rect) (hf : WidthsFit rect widths)
include hr hf

/-- The edges of the strips are computed exactly, even if the top and the bottom strip overlap. -/
theorem strips_exact : rect.bottom.SubFits widths.bottom ∧ rect.origin.y.AddFits widths.top ∧
    rect.size.h.SubFits widths.top ∧ (rect.size.h.saturatingSub widths.top).SubFits widths.bottom ∧
    rect.right.SubFits widths.right := by
  have hright := units_right hr
  have hbottom := units_bottom hr
  obtain ⟨hw, hh, ⟨hx0, hx1⟩, hy0, hy1⟩ := hr
  obtain ⟨⟨ht0, ht1⟩, ⟨hr0, hr1⟩, ⟨hb0, hb1⟩, hl0, hl1⟩ := hf
  have := rect.origin.x.isI32
  have := rect.origin.y.isI32
  have := rect.size.h.isI32
  have hsub : rect.size.h.SubFits widths.top := ⟨by omega, by omega⟩
  have hband := hsub.units_saturatingSub
  exact ⟨⟨by omega, by omega⟩, ⟨by omega, by omega⟩, hsub, ⟨by omega, by omega⟩, ⟨by omega, by omega⟩⟩

/-- The edges of the strips, in units. -/
theorem strips_units : (rect.bottom.saturatingSub widths.bottom).units =
      rect.origin.y.units + rect.size.h.units - widths.bottom.units ∧
    (rect.origin.y.saturatingAdd widths.top).units = rect.origin.y.units + widths.top.units ∧
    ((rect.size.h.saturatingSub widths.top).saturatingSub widths.bottom).units =
      rect.size.h.units - widths.top.units - widths.bottom.units ∧
    (rect.right.saturatingSub widths.right).units = rect.origin.x.units + rect.size.w.units - widths.right.units := by
  obtain ⟨h1, h2, h3, h4, h5⟩ := strips_exact hr hf
  rw [h1.units_saturatingSub, h2.units_saturatingAdd, h4.units_saturatingSub, h3.units_saturatingSub, h5.units_saturatingSub,
    units_right hr, units_bottom hr]
  exact ⟨rfl, rfl, rfl, rfl⟩

/-- Every strip is within the rect. -/
theorem strips_within (colors : Sides Rgba8) : ∀ strip ∈ strips rect widths colors, Within rect strip.1 := by
  obtain ⟨h1, h2, h3, h4⟩ := strips_units hr hf
  obtain ⟨hw, hh, -⟩ := hr
  obtain ⟨⟨ht0, ht1⟩, ⟨hr0, hr1⟩, ⟨hb0, hb1⟩, hl0, hl1⟩ := hf
  intro strip hstrip
  simp only [strips] at hstrip
  have houter : strip ∈ [((⟨rect.origin, ⟨rect.size.w, widths.top⟩⟩ : Rect), colors.top),
      (⟨⟨rect.origin.x, rect.bottom.saturatingSub widths.bottom⟩, ⟨rect.size.w, widths.bottom⟩⟩, colors.bottom)] →
      Within rect strip.1 := by
    intro h
    simp only [List.mem_cons, List.not_mem_nil, or_false] at h
    rcases h with rfl | rfl <;> constructor <;> simp only [h1] <;> omega
  split at hstrip
  · exact houter hstrip
  · rename_i hband
    rw [Au.le_iff, Au.units_zero, h3] at hband
    rcases List.mem_append.1 hstrip with h | h
    · exact houter h
    · simp only [List.mem_cons, List.not_mem_nil, or_false] at h
      rcases h with rfl | rfl <;> constructor <;> simp only [h2, h3, h4] <;> omega

/-- The strips cover what is nearer to an edge of the rect than the width of the border there. -/
theorem covers_strips (colors : Sides Rgba8) (x y : ℝ) : (∃ strip ∈ strips rect widths colors, Covers strip.1 x y) ↔
    Covers rect x y ∧ (y < (rect.origin.y.units + widths.top.units : Int) ∨
      (rect.origin.y.units + rect.size.h.units - widths.bottom.units : Int) ≤ y ∨
      x < (rect.origin.x.units + widths.left.units : Int) ∨
      (rect.origin.x.units + rect.size.w.units - widths.right.units : Int) ≤ x) := by
  obtain ⟨h1, h2, h3, h4⟩ := strips_units hr hf
  constructor
  · rintro ⟨strip, hstrip, hpoint⟩
    refine ⟨(strips_within hr hf colors strip hstrip).covers hpoint, ?_⟩
    obtain ⟨⟨hx0, hx1⟩, hy0, hy1⟩ := hpoint
    simp only [strips] at hstrip
    split at hstrip
    · simp only [List.mem_cons, List.not_mem_nil, or_false] at hstrip
      rcases hstrip with rfl | rfl
      · exact .inl hy1
      · exact .inr (.inl (h1 ▸ hy0))
    · simp only [List.cons_append, List.nil_append, List.mem_cons, List.not_mem_nil, or_false] at hstrip
      rcases hstrip with rfl | rfl | rfl | rfl
      · exact .inl hy1
      · exact .inr (.inl (h1 ▸ hy0))
      · exact .inr (.inr (.inl hx1))
      · exact .inr (.inr (.inr (h4 ▸ hx0)))
  · rintro ⟨⟨⟨hx0, hx1⟩, hy0, hy1⟩, hedge⟩
    by_cases htop : y < (rect.origin.y.units + widths.top.units : Int)
    · exact ⟨_, strips_top rect widths colors, ⟨hx0, hx1⟩, hy0, htop⟩
    by_cases hbottom : (rect.origin.y.units + rect.size.h.units - widths.bottom.units : Int) ≤ y
    · refine ⟨_, strips_bottom rect widths colors, ⟨hx0, hx1⟩, h1 ▸ hbottom, ?_⟩
      rw [h1, Int.sub_add_cancel]
      exact hy1
    -- the point is between the top and the bottom strip, so that there is a band
    rw [not_lt] at htop
    rw [not_le] at hbottom
    have hband : rect.origin.y.units + widths.top.units < rect.origin.y.units + rect.size.h.units - widths.bottom.units :=
      Int.cast_lt.1 (lt_of_le_of_lt htop hbottom)
    have hpos : ¬(rect.size.h.saturatingSub widths.top).saturatingSub widths.bottom ≤ .zero := by
      rw [Au.le_iff, Au.units_zero, h3]
      omega
    have hbandY : InSpan (rect.origin.y.saturatingAdd widths.top).units ((rect.origin.y.saturatingAdd widths.top).units +
        ((rect.size.h.saturatingSub widths.top).saturatingSub widths.bottom).units) y := by
      rw [h2, h3, show ∀ o t h b : Int, o + t + (h - t - b) = o + h - b from fun o t h b => by omega]
      exact ⟨htop, hbottom⟩
    rcases hedge with h | h | hleft | hright
    · exact absurd h (not_lt.2 htop)
    · exact absurd h (not_le.2 hbottom)
    · exact ⟨_, (strips_sides colors hpos).1, ⟨hx0, hleft⟩, hbandY⟩
    · refine ⟨_, (strips_sides colors hpos).2, ⟨h4 ▸ hright, ?_⟩, hbandY⟩
      rw [h4, Int.sub_add_cancel]
      exact hx1

end

/-- The strips of the border of an accepted rect are computed exactly. -/
theorem borderStrips_checked {rect : Rect} (hr : RectFits rect) (widths : Sides Au) (colors : Sides Rgba8) :
    borderStrips .checked rect widths colors = some (strips rect (clampWidths rect widths) colors) := by
  obtain ⟨h1, h2, h3, h4, h5⟩ := strips_exact hr (clampWidths_fit hr widths)
  have e1 : Arith.checked.sub _ _ = _ := h1.checkedSub_eq
  have e2 : Arith.checked.add _ _ = _ := h2.checkedAdd_eq
  have e3 : Arith.checked.sub _ _ = _ := h3.checkedSub_eq
  have e4 : Arith.checked.sub _ _ = _ := h4.checkedSub_eq
  have e5 : Arith.checked.sub _ _ = _ := h5.checkedSub_eq
  simp only [clampWidths] at e1 e2 e3 e4 e5
  simp only [borderStrips, bottom_checked hr, right_checked hr, Option.bind_eq_bind, Option.bind_some, e1, e2, e3, e4, e5]
  rw [strips, apply_ite some]
  rfl

/-- A border is filled the same, checked or saturated. -/
theorem fillBorder_checked (hb : IsCanvas bounds) {rect clip : Rect} (hr : RectFits rect) (hc : InCanvas bounds clip)
    (widths : Sides Au) (colors : Sides Rgba8) :
    fillBorder .checked rect widths colors clip = some (fillBorder .saturating rect widths colors clip).run := by
  have hfits := clampWidths_fit hr widths
  rw [fillBorder, borderStrips_checked hr]
  exact fillAll_checked hb hc fun strip h => (strips_within hr hfits colors strip h).fits hr

/-! ## Pixels -/

/-- The points of a device pixel. -/
def InPixel (i j : Int) (x y : ℝ) : Prop := InSpan (60 * i) (60 * i + 60) x ∧ InSpan (60 * j) (60 * j + 60) y

/-- A pixel that may be painted. -/
def PixelClip.Contains (clip : PixelClip) (i j : Int) : Prop := (clip.x0 ≤ i ∧ i < clip.x1) ∧ clip.y0 ≤ j ∧ j < clip.y1

/-- A span holds all of a pixel exactly if it reaches from its start to its end. -/
theorem pixel_subset {lo hi i : Int} :
    (∀ x, InSpan (60 * i) (60 * i + 60) x → InSpan lo hi x) ↔ lo ≤ 60 * i ∧ 60 * i + 60 ≤ hi := by
  constructor
  · intro h
    have hstart := h (60 * i : Int) ⟨le_rfl, Int.cast_lt.2 (by omega)⟩
    refine ⟨Int.cast_le.1 hstart.1, ?_⟩
    by_contra hlt
    -- the far edge of the span is a point of the pixel, but not of the span
    have hend := h hi ⟨hstart.2.le, Int.cast_lt.2 (by omega)⟩
    exact lt_irrefl _ hend.2
  · rintro ⟨hlo, hhi⟩ x hx
    exact hx.mono hlo hhi

/-- A pixel holds its own corner. -/
theorem pixel_corner (i : Int) : InSpan (60 * i) (60 * i + 60) (60 * i : Int) := ⟨le_rfl, Int.cast_lt.2 (by omega)⟩

/-- A rect covers a whole pixel exactly if it reaches around it. -/
theorem forall_pixel {r : Rect} {i j : Int} : (∀ x y, InPixel i j x y → Covers r x y) ↔
    (r.origin.x.units ≤ 60 * i ∧ 60 * i + 60 ≤ r.origin.x.units + r.size.w.units) ∧
      r.origin.y.units ≤ 60 * j ∧ 60 * j + 60 ≤ r.origin.y.units + r.size.h.units := by
  rw [← pixel_subset, ← pixel_subset]
  constructor
  · intro h
    exact ⟨fun x hx => (h x _ ⟨hx, pixel_corner j⟩).1, fun y hy => (h _ y ⟨pixel_corner i, hy⟩).2⟩
  · rintro ⟨hx, hy⟩ x y ⟨h1, h2⟩
    exact ⟨hx x h1, hy y h2⟩

/-- The first whole pixel at or behind a length. -/
theorem ceilPx_le {a : Au} {i : Int} : ceilPx a ≤ i ↔ a.units ≤ 60 * i := by
  unfold ceilPx
  split <;> omega

/-- The last whole pixel before a length. -/
theorem lt_floorPx {a : Au} {i : Int} : i < floorPx a ↔ 60 * i + 60 ≤ a.units := by
  unfold floorPx
  omega

/-- The pixels of a clip are the same, checked or saturated. -/
theorem pixelClip_checked {clip : Rect} (hc : RectFits clip) :
    pixelClip .checked clip = some (pixelClip .saturating clip).run := by
  simp only [pixelClip, right_checked hc, bottom_checked hc, Option.bind_eq_bind, Option.bind_some]
  rfl

/-- The pixels of a clip, without the checks. -/
theorem pixelClip_saturating (clip : Rect) : (pixelClip .saturating clip).run =
    if floorPx clip.right ≤ ceilPx clip.origin.x ∨ floorPx clip.bottom ≤ ceilPx clip.origin.y then none
    else some ⟨ceilPx clip.origin.x, ceilPx clip.origin.y, floorPx clip.right, floorPx clip.bottom⟩ := rfl

/-- The pixel clip contains the pixels that are inside the clip as a whole. -/
theorem pixelClip_contains {clip : Rect} (hc : RectFits clip) (i j : Int) :
    (∃ pixels, (pixelClip .saturating clip).run = some pixels ∧ pixels.Contains i j) ↔
      ∀ x y, InPixel i j x y → Covers clip x y := by
  have hedges : (ceilPx clip.origin.x ≤ i ∧ i < floorPx clip.right) ∧ ceilPx clip.origin.y ≤ j ∧ j < floorPx clip.bottom ↔
      ∀ x y, InPixel i j x y → Covers clip x y := by
    rw [forall_pixel, ceilPx_le, ceilPx_le, lt_floorPx, lt_floorPx, units_right hc, units_bottom hc]
  rw [← hedges, pixelClip_saturating]
  by_cases hempty : floorPx clip.right ≤ ceilPx clip.origin.x ∨ floorPx clip.bottom ≤ ceilPx clip.origin.y
  · rw [if_pos hempty]
    refine iff_of_false (by simp) ?_
    rintro ⟨⟨h1, h2⟩, h3, h4⟩
    omega
  · rw [if_neg hempty]
    constructor
    · rintro ⟨pixels, hp, h⟩
      cases hp
      exact h
    · intro h
      exact ⟨_, rfl, h⟩

/-- There is no pixel clip inside a clip that covers nothing. -/
theorem pixelClip_eq_none {clip : Rect} (hc : RectFits clip) (hno : ∀ x y, ¬Covers clip x y) :
    (pixelClip .saturating clip).run = none := by
  cases hpixels : (pixelClip .saturating clip).run with
  | none => rfl
  | some pixels =>
    have hcontains : pixels.Contains pixels.x0 pixels.y0 := by
      rw [pixelClip_saturating] at hpixels
      split at hpixels
      · cases hpixels
      · rename_i hsome
        cases hpixels
        rw [not_or, not_le, not_le] at hsome
        exact ⟨⟨le_rfl, hsome.1⟩, le_rfl, hsome.2⟩
    have hcovers := (pixelClip_contains hc _ _).1 ⟨pixels, hpixels, hcontains⟩
    exact absurd (hcovers _ _ ⟨pixel_corner pixels.x0, pixel_corner pixels.y0⟩) (hno _ _)

/-! ## Text -/

/-- Glyphs whose pens fit are painted the same, checked or saturated. -/
theorem paintGlyphs_checked (run : GlyphRun) (clip : PixelClip) {glyphs : List Glyph}
    (hg : ∀ glyph ∈ glyphs, run.origin.x.AddFits glyph.x ∧ run.origin.y.AddFits glyph.y) :
    paintGlyphs .checked run clip glyphs = some (paintGlyphs .saturating run clip glyphs).run := by
  induction glyphs with
  | nil => rfl
  | cons glyph glyphs ih =>
    obtain ⟨hx, hy⟩ := hg glyph List.mem_cons_self
    have hpenX : Arith.checked.add _ _ = _ := hx.checkedAdd_eq
    have hpenY : Arith.checked.add _ _ = _ := hy.checkedAdd_eq
    have hrest := ih fun glyph h => hg glyph (List.mem_cons_of_mem _ h)
    simp only [paintGlyphs, hpenX, hpenY, hrest, Option.bind_eq_bind, Option.bind_some]
    rfl

/-- A run whose pens fit is painted the same, checked or saturated. -/
theorem paintRun_checked (fonts : FontDb) {run : GlyphRun} {clip : Rect} (hc : RectFits clip) (hg : glyphsFit run = true) :
    paintRun .checked fonts run clip = some (paintRun .saturating fonts run clip).run := by
  have hglyphs : ∀ glyph ∈ run.glyphs, run.origin.x.AddFits glyph.x ∧ run.origin.y.AddFits glyph.y := by
    intro glyph h
    have := List.all_eq_true.1 hg glyph h
    simpa only [Bool.and_eq_true, Au.isSome_checkedAdd] using this
  unfold paintRun
  cases fonts run.font with
  | none => rfl
  | some face =>
    by_cases hempty : run.glyphs.isEmpty = true ∨ run.color.a = 0
    · simp only [if_pos hempty]
      rfl
    · simp only [if_neg hempty, pixelClip_checked hc, Option.bind_eq_bind, Option.bind_some, Id.run_bind]
      cases (pixelClip .saturating clip).run with
      | none => rfl
      | some pixels =>
        by_cases hsize : run.size ≤ .zero ∨ maxGlyphPx < run.size
        · simp only [if_pos hsize]
          rfl
        · simp only [if_neg hsize, paintGlyphs_checked run pixels hglyphs, Option.bind_some]
          cases face.parses <;> rfl

/-- Glyphs are painted by blits of their run's font, size and color, inside the clip. -/
theorem paintGlyphs_blits (run : GlyphRun) (clip : PixelClip) (glyphs : List Glyph) :
    ∀ draw ∈ (paintGlyphs .saturating run clip glyphs).run, ∃ glyph penX penY,
      draw = .blit run.font run.size glyph penX penY run.color clip := by
  induction glyphs with
  | nil => exact fun draw h => absurd h List.not_mem_nil
  | cons glyph glyphs ih =>
    intro draw h
    rcases List.mem_cons.1 h with rfl | h
    · exact ⟨_, _, _, rfl⟩
    · exact ih draw h

/-- The blits of a run are clipped to the pixels of the clip. -/
theorem paintRun_blits {fonts : FontDb} {run : GlyphRun} {clip : Rect} {draws : List Draw}
    (h : (paintRun .saturating fonts run clip).run = .ok draws) : ∀ draw ∈ draws, ∃ glyph penX penY pixels,
      draw = .blit run.font run.size glyph penX penY run.color pixels ∧ (pixelClip .saturating clip).run = some pixels := by
  unfold paintRun at h
  cases hface : fonts run.font with
  | none =>
    rw [hface] at h
    cases h
  | some face =>
    simp only [hface] at h
    split at h
    · cases h
      simp
    · rw [Id.run_bind] at h
      cases hpixels : (pixelClip .saturating clip).run with
      | none =>
        rw [hpixels] at h
        cases h
        simp
      | some pixels =>
        simp only [hpixels] at h
        split at h
        · cases h
          simp
        · split at h
          · cases h
          · cases h
            intro draw hdraw
            obtain ⟨glyph, penX, penY, rfl⟩ := paintGlyphs_blits run pixels run.glyphs draw hdraw
            exact ⟨glyph, penX, penY, pixels, rfl, rfl⟩

/-! ## One item -/

/-- The rects an item fills, with the colors it fills them with. -/
def filledRects : DisplayItem → List (Rect × Rgba8)
  | .rect rect color => [(rect, color)]
  | .border rect widths colors => (borderStrips .saturating rect widths colors).run
  | .text _ | .pushClip _ | .popClip => []

/-- One more step is scanned at the end. -/
theorem scanl_concat {α β : Type} (f : β → α → β) (b : β) (l : List α) (a : α) :
    (l ++ [a]).scanl f b = l.scanl f b ++ [f (l.foldl f b) a] := by
  rw [List.scanl_append, List.scanl_cons, List.tail_cons, List.scanl_nil]

/-- The clip stack is the one of some open clips, all of them accepted. -/
structure Clips (bounds : Rect) (opens : List Rect) (s : RasterState) : Prop where
  stack : s.clips = opens.scanl (fun clip rect => (intersect .saturating clip rect).run) bounds
  fits : ∀ rect ∈ opens, RectFits rect

variable {opens : List Rect} {s s' : RasterState}

/-- The clip on top is the intersection of all that are open. -/
theorem Clips.clip_eq (h : Clips bounds opens s) :
    s.clip bounds = opens.foldl (fun clip rect => (intersect .saturating clip rect).run) bounds := by
  rw [RasterState.clip, h.stack, List.getLast?_scanl, Option.getD_some]

/-- There is one clip for each that is open, and the canvas. -/
theorem Clips.length_eq (h : Clips bounds opens s) : s.clips.length = opens.length + 1 := by
  rw [h.stack, List.length_scanl]

/-- The intersection of clips stays inside the canvas, and covers what all of them cover. -/
theorem foldl_intersect (hb : IsCanvas bounds) (hf : ∀ rect ∈ opens, RectFits rect) {clip : Rect} (hc : InCanvas bounds clip) :
    InCanvas bounds (opens.foldl (fun clip rect => (intersect .saturating clip rect).run) clip) ∧
      ∀ x y, Covers (opens.foldl (fun clip rect => (intersect .saturating clip rect).run) clip) x y ↔
        Covers clip x y ∧ ∀ rect ∈ opens, Covers rect x y := by
  induction opens generalizing clip with
  | nil => exact ⟨hc, fun x y => by simp⟩
  | cons rect opens ih =>
    obtain ⟨-, hin, hcovers⟩ := intersect_spec hb (hc.fits hb) (hf rect List.mem_cons_self) (.inl hc)
    obtain ⟨h1, h2⟩ := ih (fun r h => hf r (List.mem_cons_of_mem _ h)) hin
    refine ⟨h1, ?_⟩
    intro x y
    rw [List.foldl_cons, h2, hcovers, List.forall_mem_cons, and_assoc]

/-- The clip on top is inside the canvas. -/
theorem Clips.inCanvas (hb : IsCanvas bounds) (h : Clips bounds opens s) : InCanvas bounds (s.clip bounds) := by
  rw [h.clip_eq]
  exact (foldl_intersect hb h.fits hb.inCanvas).1

/-- The innermost clip covers what the canvas and all open clips cover. -/
theorem Clips.covers (hb : IsCanvas bounds) (h : Clips bounds opens s) (x y : ℝ) :
    Covers (s.clip bounds) x y ↔ Covers bounds x y ∧ ∀ rect ∈ opens, Covers rect x y := by
  rw [h.clip_eq]
  exact (foldl_intersect hb h.fits hb.inCanvas).2 x y

/-- At first the canvas is the only clip. -/
theorem Clips.start (bounds : Rect) : Clips bounds [] (start bounds) := ⟨rfl, by simp⟩

variable {inflated : InflatedBounds} {depth : Nat} {item : DisplayItem}

/-- The rects an item fills have exact edges. -/
theorem filledRects_fit (hi : item.Fits inflated depth) : ∀ strip ∈ filledRects item, RectFits strip.1 := by
  cases item with
  | rect rect color =>
    intro strip h
    rw [List.mem_singleton.1 h]
    exact rectIsValid_iff.1 hi.1
  | border rect widths colors =>
    have hr := rectIsValid_iff.1 hi.1.1
    exact fun strip h => (strips_within hr (clampWidths_fit hr widths) colors strip h).fits hr
  | text run => exact fun strip h => absurd h List.not_mem_nil
  | pushClip rect => exact fun strip h => absurd h List.not_mem_nil
  | popClip => exact fun strip h => absurd h List.not_mem_nil

/-- What an item other than a run draws are the fills of its rects. -/
theorem step_draws {fonts : FontDb} (hs : (step .saturating fonts bounds s item).run = .ok s')
    (hrun : ∀ run, item ≠ .text run) :
    s'.draws = s.draws ++ (fillAll .saturating (s.clip bounds) (filledRects item)).run := by
  cases item with
  | rect rect color =>
    cases hs
    show _ = s.draws ++ ((fill .saturating rect color (s.clip bounds)).run ++ [])
    rw [List.append_nil]
    rfl
  | border rect widths colors =>
    cases hs
    rfl
  | text run => exact absurd rfl (hrun run)
  | pushClip rect =>
    cases hs
    exact (List.append_nil _).symm
  | popClip =>
    simp only [step] at hs
    split at hs
    · cases hs
      exact (List.append_nil _).symm
    · cases hs
      exact (List.append_nil _).symm

/-- What a run draws are blits with the pixel clip. -/
theorem step_blits {fonts : FontDb} {run : GlyphRun} (hs : (step .saturating fonts bounds s (.text run)).run = .ok s') :
    ∃ draws, s'.draws = s.draws ++ draws ∧ ∀ draw ∈ draws, ∃ glyph penX penY pixels,
      draw = .blit run.font run.size glyph penX penY run.color pixels ∧
        (pixelClip .saturating (s.clip bounds)).run = some pixels := by
  simp only [step, Id.run_bind] at hs
  cases hp : (paintRun .saturating fonts run (s.clip bounds)).run with
  | error e =>
    rw [hp] at hs
    cases hs
  | ok draws =>
    rw [hp] at hs
    cases hs
    exact ⟨draws, rfl, paintRun_blits hp⟩

/-- An accepted item is executed exactly. -/
theorem step_checked (hb : IsCanvas bounds) (fonts : FontDb) (h : Clips bounds opens s) (hi : item.Fits inflated depth) :
    step .checked fonts bounds s item = some (step .saturating fonts bounds s item).run := by
  have hc := h.inCanvas hb
  cases item with
  | rect rect color =>
    have hr := rectIsValid_iff.1 hi.1
    simp only [step, (fill_spec hb hr hc color).1, Option.bind_eq_bind, Option.bind_some]
    rfl
  | border rect widths colors =>
    have hr := rectIsValid_iff.1 hi.1.1
    simp only [step, fillBorder_checked hb hr hc, Option.bind_eq_bind, Option.bind_some]
    rfl
  | text run =>
    simp only [step, paintRun_checked fonts (hc.fits hb) hi.2.2, Option.bind_eq_bind, Option.bind_some, Id.run_bind]
    cases (paintRun .saturating fonts run (s.clip bounds)).run <;> rfl
  | pushClip rect =>
    have hr := rectIsValid_iff.1 hi.1.1
    simp only [step, (intersect_spec hb (hc.fits hb) hr (.inl hc)).1, Option.bind_eq_bind, Option.bind_some]
    rfl
  | popClip => rfl

/-- An accepted item keeps the clip stack that of the open clips. -/
theorem Clips.step (h : Clips bounds opens s) (hi : item.Fits inflated opens.length) {fonts : FontDb}
    (hs : (step .saturating fonts bounds s item).run = .ok s') :
    Clips bounds (Paint.clipStep opens item) s' ∧ (Paint.clipStep opens item).length = depthAfter opens.length item := by
  cases item with
  | rect rect color =>
    cases hs
    exact ⟨⟨h.stack, h.fits⟩, rfl⟩
  | border rect widths colors =>
    cases hs
    exact ⟨⟨h.stack, h.fits⟩, rfl⟩
  | text run =>
    simp only [Gfx.step, Id.run_bind] at hs
    cases hp : (paintRun .saturating fonts run (s.clip bounds)).run with
    | error e =>
      rw [hp] at hs
      cases hs
    | ok draws =>
      rw [hp] at hs
      cases hs
      exact ⟨⟨h.stack, h.fits⟩, rfl⟩
  | pushClip rect =>
    cases hs
    refine ⟨⟨?_, ?_⟩, List.length_append⟩
    · show s.clips ++ [(intersect .saturating (s.clip bounds) rect).run] = _
      rw [Paint.clipStep, scanl_concat, ← h.stack, ← h.clip_eq]
    · intro r hr
      rcases List.mem_append.1 hr with hr | hr
      · exact h.fits r hr
      · rw [List.mem_singleton.1 hr]
        exact rectIsValid_iff.1 hi.1.1
  | popClip =>
    have hlen := h.length_eq
    have hopen : opens.length ≠ 0 := hi
    obtain ⟨outer, rect, hconcat⟩ := (List.eq_nil_or_concat opens).resolve_left fun h0 => hopen (h0 ▸ rfl)
    rw [List.concat_eq_append] at hconcat
    subst hconcat
    simp only [Gfx.step, if_pos (show 1 < s.clips.length by omega)] at hs
    cases hs
    simp only [Paint.clipStep, List.dropLast_concat, depthAfter, List.length_append, List.length_singleton, Nat.add_sub_cancel,
      and_true]
    refine ⟨?_, fun r hr => h.fits r (List.mem_append_left _ hr)⟩
    show s.clips.dropLast = _
    rw [h.stack, scanl_concat, List.dropLast_concat]

/-- The clip stack after some items of an accepted list, and the number of open clips the validator counts there. -/
theorem Clips.execute {fonts : FontDb} {items : List DisplayItem} (h : Clips bounds opens s)
    (hi : ItemsFit inflated opens.length items) (hs : (execute .saturating fonts bounds s items).run = .ok s') :
    Clips bounds (items.foldl Paint.clipStep opens) s' ∧
      (items.foldl Paint.clipStep opens).length = items.foldl depthAfter opens.length := by
  induction items generalizing s opens with
  | nil =>
    cases hs
    exact ⟨h, rfl⟩
  | cons item items ih =>
    simp only [Gfx.execute, Id.run_bind] at hs
    cases hstep : (Gfx.step .saturating fonts bounds s item).run with
    | error e =>
      rw [hstep] at hs
      cases hs
    | ok s₁ =>
      rw [hstep] at hs
      obtain ⟨h1, hlen⟩ := h.step hi.1 hstep
      rw [List.foldl_cons, List.foldl_cons, ← hlen]
      exact ih h1 (hlen ▸ hi.2) hs

/-- Accepted items are executed exactly. -/
theorem execute_checked (hb : IsCanvas bounds) (fonts : FontDb) {items : List DisplayItem} (h : Clips bounds opens s)
    (hi : ItemsFit inflated opens.length items) :
    execute .checked fonts bounds s items = some (execute .saturating fonts bounds s items).run := by
  induction items generalizing s opens with
  | nil => rfl
  | cons item items ih =>
    simp only [execute, step_checked hb fonts h hi.1, Option.bind_eq_bind, Option.bind_some, Id.run_bind]
    cases hstep : (Gfx.step .saturating fonts bounds s item).run with
    | error e => rfl
    | ok s₁ =>
      obtain ⟨h1, hlen⟩ := h.step hi.1 hstep
      exact ih h1 (hlen ▸ hi.2)

end Gfx

end ChromeLight
