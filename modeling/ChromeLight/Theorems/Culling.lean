import ChromeLight.Lemmas.Paint
import ChromeLight.Lemmas.Validate

/-!
# Culling is the validator's bounds check

The painter and the validator each widen the viewport and each test rects and runs against it. They agree
(`CullingAgrees`): the items of a block stay exactly if the validator would not find its rect out of bounds, a run with
glyphs stays exactly if it would not find the run's origin so, and a clip that is clamped to the region always passes, being
the part of the padding box inside the region wherever there is one.
-/

namespace ChromeLight

namespace Paint

/-- A rect whose size is not negative and whose far edges are app units. -/
def RectFits (r : Rect) : Prop :=
  0 ≤ r.size.w.units ∧ 0 ≤ r.size.h.units ∧ r.origin.x.AddFits r.size.w ∧ r.origin.y.AddFits r.size.h

/-- The points of a rect, its edges included. -/
def Holds (r : Rect) (x y : Int) : Prop :=
  (r.origin.x.units ≤ x ∧ x ≤ r.origin.x.units + r.size.w.units) ∧
    r.origin.y.units ≤ y ∧ y ≤ r.origin.y.units + r.size.h.units

/-- The points of the widened viewport, its edges included. -/
def InRegion (v : InflatedViewport) (x y : Int) : Prop :=
  (v.min.x.units ≤ x ∧ x ≤ v.max.x.units) ∧ v.min.y.units ≤ y ∧ y ≤ v.max.y.units

theorem rectIsValid_iff {r : Rect} : rectIsValid r = true ↔ RectFits r := by
  simp only [rectIsValid, decide_eq_true_eq, ge_iff_le, Au.le_iff, Au.units_zero, Au.isSome_checkedAdd, RectFits]

/-! ## One axis -/

/-- The span from `a` to `b` in a region. -/
theorem clamped_axis {a b min max : Au} (ha : min.units ≤ a.units ∧ a.units ≤ max.units)
    (hb : min.units ≤ b.units ∧ b.units ≤ max.units) :
    0 ≤ ((Max.max b a).saturatingSub a).units ∧ a.AddFits ((Max.max b a).saturatingSub a) ∧
      axisOverlaps a (a.saturatingAdd ((Max.max b a).saturatingSub a)) min max = true := by
  have hsize := Au.units_saturatingSub (Max.max b a) a
  rw [Au.units_max] at hsize
  have := a.isI32
  have := b.isI32
  have hfits : a.AddFits ((Max.max b a).saturatingSub a) := by
    unfold Au.AddFits
    omega
  have hright := hfits.units_saturatingAdd
  refine ⟨by omega, hfits, ?_⟩
  unfold axisOverlaps
  split
  · simp only [ge_iff_le, Au.le_iff, decide_eq_true_eq]
    omega
  · rename_i hne
    have hne' : a.units ≠ (a.saturatingAdd ((Max.max b a).saturatingSub a)).units := fun h => hne (Au.ext_units h)
    simp only [gt_iff_lt, Au.lt_iff, decide_eq_true_eq]
    omega

/-- Clamping a span that overlaps a region cuts off what is outside. -/
theorem clamped_exact {lo size min max : Au} (hpos : 0 ≤ size.units) (hfits : lo.AddFits size) (hle : min.units ≤ max.units)
    (hin : axisOverlaps lo (lo.saturatingAdd size) min max = true) (x : Int) :
    ((lo.within min max).units ≤ x ∧ x ≤ (lo.within min max).units +
      ((Max.max ((lo.saturatingAdd size).within min max) (lo.within min max)).saturatingSub (lo.within min max)).units) ↔
      (lo.units ≤ x ∧ x ≤ lo.units + size.units) ∧ min.units ≤ x ∧ x ≤ max.units := by
  have hright := hfits.units_saturatingAdd
  have hoverlap : lo.units ≤ max.units ∧ min.units ≤ lo.units + size.units := by
    unfold axisOverlaps at hin
    split at hin
    · simp only [ge_iff_le, Au.le_iff, decide_eq_true_eq] at hin
      omega
    · simp only [gt_iff_lt, Au.lt_iff, decide_eq_true_eq] at hin
      omega
  have := size.isI32
  rw [Au.units_saturatingSub, Au.units_max, Au.units_within, Au.units_within, hright]
  omega

/-! ## The region of a viewport at the origin -/

section

variable {size : Size} (hw : 0 < size.w.units) (hh : 0 < size.h.units)
include hw hh

/-- The region is the one of the validator, and reaches from before zero to after it in both directions. -/
theorem region_spans :
    ((InflatedViewport.new ⟨.zero, size⟩).min.x.units < 0 ∧ 0 < (InflatedViewport.new ⟨.zero, size⟩).max.x.units) ∧
    (InflatedViewport.new ⟨.zero, size⟩).min.y.units < 0 ∧ 0 < (InflatedViewport.new ⟨.zero, size⟩).max.y.units := by
  have margin : (Au.fromPx offscreenMarginPx).units = 245760 := by decide
  simp only [InflatedViewport.new, Rect.right, Rect.bottom, Point.zero, Au.units_saturatingAdd, Au.units_saturatingSub,
    Au.units_zero, margin]
  omega

theorem region_proper : (InflatedViewport.new ⟨.zero, size⟩).Proper := by
  obtain ⟨⟨hminx, hmaxx⟩, hminy, hmaxy⟩ := region_spans hw hh
  exact ⟨Au.le_iff.2 (by omega), Au.le_iff.2 (by omega)⟩

/-- A clamped clip passes the validator's check. -/
theorem part_accepted (rect : Rect) :
    rectIsValid ((InflatedViewport.new ⟨.zero, size⟩).part rect) = true ∧
      (inflate ⟨.zero, size⟩).intersectsRect ((InflatedViewport.new ⟨.zero, size⟩).part rect) = true := by
  obtain ⟨⟨hminx, hmaxx⟩, hminy, hmaxy⟩ := region_spans hw hh
  have inside : ∀ {min max : Au} (_ : min.units < 0) (_ : 0 < max.units) (x : Au),
      min.units ≤ (x.within min max).units ∧ (x.within min max).units ≤ max.units := by
    intro min max h0 h1 x
    rw [Au.units_within]
    omega
  obtain ⟨hw0, hwfits, hx⟩ := clamped_axis (inside hminx hmaxx rect.origin.x) (inside hminx hmaxx rect.right)
  obtain ⟨hh0, hhfits, hy⟩ := clamped_axis (inside hminy hmaxy rect.origin.y) (inside hminy hmaxy rect.bottom)
  exact ⟨rectIsValid_iff.2 ⟨hw0, hh0, hwfits, hhfits⟩, Bool.and_eq_true_iff.2 ⟨hx, hy⟩⟩

/-- Clamping a rect that overlaps the region leaves its part inside the region. -/
theorem part_exact {rect : Rect} (hr : RectFits rect) (hin : (inflate ⟨.zero, size⟩).intersectsRect rect = true) (x y : Int) :
    Holds ((InflatedViewport.new ⟨.zero, size⟩).part rect) x y ↔
      Holds rect x y ∧ InRegion (.new ⟨.zero, size⟩) x y := by
  obtain ⟨⟨hminx, hmaxx⟩, hminy, hmaxy⟩ := region_spans hw hh
  obtain ⟨hw0, hh0, hwfits, hhfits⟩ := hr
  obtain ⟨hinx, hiny⟩ := Bool.and_eq_true_iff.1 hin
  have hx := clamped_exact hw0 hwfits (Int.le_of_lt (Int.lt_trans hminx hmaxx)) hinx x
  have hy := clamped_exact hh0 hhfits (Int.le_of_lt (Int.lt_trans hminy hmaxy)) hiny y
  exact (and_congr hx hy).trans and_and_and_comm

end

/-! ## Agreement -/

theorem checkRect_eq_outOfBounds {r : Rect} (hr : RectFits r) (index : Nat) (inflated : InflatedBounds) :
    checkRect r index inflated = .error (.outOfBounds index) ↔ inflated.intersectsRect r = false := by
  unfold checkRect
  rw [rectIsValid_iff.2 hr]
  cases inflated.intersectsRect r <;> simp

theorem checkTextRun_eq_outOfBounds {run : GlyphRun} (hr : run.glyphs.length ≤ maxGlyphsPerRun) (index : Nat)
    (inflated : InflatedBounds) :
    checkTextRun run index inflated = .error (.outOfBounds index) ↔ inflated.containsPoint run.origin = false := by
  unfold checkTextRun
  rw [if_neg (Nat.not_lt.2 hr)]
  cases inflated.containsPoint run.origin <;> cases glyphsFit run <;> simp

/-- The painter's culling in a viewport and the validator's bounds check for it decide alike. -/
structure CullingAgrees (bounds : Rect) : Prop where
  /-- The items of a block are left out exactly if its rect is out of bounds. -/
  block : ∀ f style suppress items index, f.kind = .block → RectFits f.borderBox →
    paintFragment f style suppress (.new bounds) items =
      if checkRect f.borderBox index (inflate bounds) = .error (.outOfBounds index) then items
      else items ++ (backgroundItems f style suppress ++ borderItems f style)
  /-- The runs that stay are those that have glyphs and an origin in bounds. -/
  text : ∀ f runs style suppress items, f.kind = .text runs →
    paintFragment f style suppress (.new bounds) items =
      items ++ (runs.filter fun run => !run.glyphs.isEmpty && (inflate bounds).containsPoint run.origin).map .text
  /-- For a run with no more glyphs than a run may have, that is the check's own answer. -/
  origin : ∀ run index, run.glyphs.length ≤ maxGlyphsPerRun →
    ((inflate bounds).containsPoint run.origin = true ↔
      checkTextRun run index (inflate bounds) ≠ .error (.outOfBounds index))
  /-- Any rect can be clamped, and the clip passes the check. -/
  clampAccepted : ∀ rect index, ∃ clip, (InflatedViewport.new bounds).clamp rect = some clip ∧
    checkRect clip index (inflate bounds) = .ok ()
  /-- The clip of a rect that overlaps the region is its part inside the region. -/
  clampExact : ∀ rect clip, RectFits rect → (inflate bounds).intersectsRect rect = true →
    (InflatedViewport.new bounds).clamp rect = some clip →
    ∀ x y, Holds clip x y ↔ Holds rect x y ∧ InRegion (.new bounds) x y

/-- They decide alike for every viewport of positive size. -/
theorem culling_agrees (size : Size) (hw : 0 < size.w.units) (hh : 0 < size.h.units) : CullingAgrees ⟨.zero, size⟩ where
  block f style suppress items index hk hr := by
    rw [paintFragment_eq]
    simp only [ownItems, hk, checkRect_eq_outOfBounds hr]
    show items ++ (if (inflate ⟨.zero, size⟩).intersectsRect f.borderBox = true then _ else _) = _
    cases (inflate ⟨.zero, size⟩).intersectsRect f.borderBox <;> simp
  text f runs style suppress items hk := by
    rw [paintFragment_eq]
    simp only [ownItems, hk]
    rfl
  origin run index hr := by
    rw [ne_eq, checkTextRun_eq_outOfBounds hr]
    cases (inflate ⟨.zero, size⟩).containsPoint run.origin <;> simp
  clampAccepted rect index :=
    ⟨_, by rw [InflatedViewport.clamp_eq, if_pos (region_proper hw hh)], checkRect_eq_ok.2 (part_accepted hw hh rect)⟩
  clampExact rect clip hr hin hclip x y := by
    rw [InflatedViewport.clamp_eq, if_pos (region_proper hw hh)] at hclip
    obtain rfl := Option.some.inj hclip
    exact part_exact hw hh hr hin x y

/-- They do at 800 by 600 pixels. -/
theorem culling_agrees_window : CullingAgrees ⟨.zero, .fromPx 800, .fromPx 600⟩ :=
  culling_agrees ⟨.fromPx 800, .fromPx 600⟩ (by decide) (by decide)

/-- A run without glyphs is in bounds and yet not painted. -/
theorem keeps_run_false : ¬∀ (size : Size), 0 < size.w.units → 0 < size.h.units →
    ∀ f runs style suppress run index, f.kind = .text runs → run ∈ runs →
      (.text run ∈ paintFragment f style suppress (.new ⟨.zero, size⟩) [] ↔
        checkTextRun run index (inflate ⟨.zero, size⟩) ≠ .error (.outOfBounds index)) := by
  intro h
  let run : GlyphRun := ⟨⟨0⟩, .fromPx 16, .zero, [], .black⟩
  let f : Fragment := ⟨none, .text [run], .zero, .zero, .zero, ⟨0⟩, []⟩
  have hrun := h ⟨.fromPx 800, .fromPx 600⟩ (by decide) (by decide) f [run] (.initial .sample) false run 0 rfl
    List.mem_cons_self
  have hpainted : paintFragment f (.initial .sample) false (.new ⟨.zero, .fromPx 800, .fromPx 600⟩) [] = [] := rfl
  rw [hpainted] at hrun
  exact absurd (hrun.2 (by decide)) List.not_mem_nil

end Paint

end ChromeLight
