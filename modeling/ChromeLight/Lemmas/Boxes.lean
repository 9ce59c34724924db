import ChromeLight.Lemmas.Push

/-!
# The boxes of a fragment

A finished block has three boxes, one around the other: the padding box is the border box without the border, the content box
the padding box without the padding. Where no sum saturates and no side is negative, taking border and padding off again gives
back the content size the border box was made of, and the same content origin as adding them to the place of the block
(`contentBox_origin`, `nested_fragment`). A move that does not saturate keeps the boxes within each other
(`nested_shiftFragment`).
-/

namespace ChromeLight

/-- A rect lies within another one, edge by edge. -/
structure Rect.Within (inner outer : Rect) : Prop where
  left : outer.origin.x.units ≤ inner.origin.x.units
  top : outer.origin.y.units ≤ inner.origin.y.units
  right : inner.origin.x.units + inner.size.w.units ≤ outer.origin.x.units + outer.size.w.units
  bottom : inner.origin.y.units + inner.size.h.units ≤ outer.origin.y.units + outer.size.h.units

def Size.NonNeg (s : Size) : Prop := 0 ≤ s.w.units ∧ 0 ≤ s.h.units

def Sides.NonNeg (s : Sides Au) : Prop := 0 ≤ s.top.units ∧ 0 ≤ s.right.units ∧ 0 ≤ s.bottom.units ∧ 0 ≤ s.left.units

/-- The boxes of a fragment lie within each other, and none of them has a negative size. -/
structure Fragment.Nested (f : Fragment) : Prop where
  content : f.contentBox.Within f.paddingBox
  padding : f.paddingBox.Within f.borderBox
  contentSize : f.contentBox.size.NonNeg
  paddingSize : f.paddingBox.size.NonNeg
  borderSize : f.borderBox.size.NonNeg

/-- Moving the boxes of a fragment does not saturate. -/
def Fragment.ShiftFits (f : Fragment) (d : Au × Au) : Prop :=
  ∀ r ∈ [f.borderBox, f.paddingBox, f.contentBox], r.origin.x.AddFits d.1 ∧ r.origin.y.AddFits d.2

instance (s : Sides Au) : Decidable s.NonNeg := inferInstanceAs (Decidable (_ ∧ _))

instance (f : Fragment) (d : Au × Au) : Decidable (f.ShiftFits d) := inferInstanceAs (Decidable (∀ _ ∈ _, _))

namespace Block

/-- No sum that the boxes of a block are made of is more than an app unit can be. -/
structure Finished.Fits (b : Finished) : Prop where
  width : b.contentWidth.units + b.padding.left.units + b.padding.right.units + b.border.left.units + b.border.right.units
    ≤ 2147483647
  height : b.contentHeight.units + b.padding.top.units + b.padding.bottom.units + b.border.top.units + b.border.bottom.units
    ≤ 2147483647
  x : b.origin.x.units + b.padding.left.units + b.border.left.units ≤ 2147483647
  y : b.origin.y.units + b.padding.top.units + b.border.top.units ≤ 2147483647

instance (b : Finished) : Decidable b.Fits :=
  decidable_of_iff
    (b.contentWidth.units + b.padding.left.units + b.padding.right.units + b.border.left.units + b.border.right.units
        ≤ 2147483647 ∧
      b.contentHeight.units + b.padding.top.units + b.padding.bottom.units + b.border.top.units + b.border.bottom.units
        ≤ 2147483647 ∧
      b.origin.x.units + b.padding.left.units + b.border.left.units ≤ 2147483647 ∧
      b.origin.y.units + b.padding.top.units + b.border.top.units ≤ 2147483647)
    ⟨fun ⟨hw, hh, hx, hy⟩ => ⟨hw, hh, hx, hy⟩, fun ⟨hw, hh, hx, hy⟩ => ⟨hw, hh, hx, hy⟩⟩

/-! ## One axis -/

section

variable {origin content near far borderNear borderFar : Au} (hnear : 0 ≤ near.units) (hfar : 0 ≤ far.units)
  (hborderNear : 0 ≤ borderNear.units) (hborderFar : 0 ≤ borderFar.units)
include hnear hborderNear

/-- Padding and border may be added to a place in either order. -/
theorem origin_insets (hfits : origin.units + near.units + borderNear.units ≤ 2147483647) :
    (origin.saturatingAdd borderNear).units = origin.units + borderNear.units ∧
      ((origin.saturatingAdd borderNear).saturatingAdd near).units = origin.units + borderNear.units + near.units ∧
      ((origin.saturatingAdd near).saturatingAdd borderNear) = (origin.saturatingAdd borderNear).saturatingAdd near := by
  have := origin.isI32
  simp only [Au.ext_iff_units, Au.units_saturatingAdd]
  omega

include hfar hborderFar

/-- Border and padding added to a content size and taken off again. -/
theorem size_insets (hcontent : 0 ≤ content.units)
    (hfits : content.units + near.units + far.units + borderNear.units + borderFar.units ≤ 2147483647) {border padding : Au}
    (hborder : border = (((content.saturatingAdd near).saturatingAdd far).saturatingAdd borderNear).saturatingAdd borderFar)
    (hpadding : padding = max ((border.saturatingSub borderNear).saturatingSub borderFar) .zero) :
    border.units = content.units + near.units + far.units + borderNear.units + borderFar.units ∧
      padding.units = content.units + near.units + far.units ∧
      max ((padding.saturatingSub near).saturatingSub far) .zero = content := by
  have hb : border.units = content.units + near.units + far.units + borderNear.units + borderFar.units := by
    rw [hborder]
    simp only [Au.units_saturatingAdd]
    omega
  have hp : padding.units = content.units + near.units + far.units := by
    rw [hpadding]
    simp only [Au.units_max, Au.units_saturatingSub, Au.units_zero]
    omega
  refine ⟨hb, hp, Au.ext_units ?_⟩
  simp only [Au.units_max, Au.units_saturatingSub, Au.units_zero]
  omega

end

/-! ## The boxes of a finished block -/

variable {b : Finished}

/-- Taking border and padding off the border box comes to the same place as adding them to its origin, unless a sum
saturates. -/
theorem contentBox_origin (hpadding : b.padding.NonNeg) (hborder : b.border.NonNeg) (hfits : b.Fits) {model : BoxModel}
    (hp : b.padding = model.padding) (hb : b.border = model.border) (style : StyleId) :
    (b.fragment style).contentBox.origin = contentOriginOf b.origin model := by
  obtain ⟨htop, -, -, hleft⟩ := hpadding
  obtain ⟨hborderTop, -, -, hborderLeft⟩ := hborder
  obtain ⟨-, -, hx⟩ := origin_insets hleft hborderLeft hfits.x
  obtain ⟨-, -, hy⟩ := origin_insets htop hborderTop hfits.y
  rw [contentOriginOf, ← hp, ← hb, hx, hy]
  rfl

/-- The boxes of a block lie within each other, and its content box has the content size, unless a sum saturates. -/
theorem nested_fragment (hpadding : b.padding.NonNeg) (hborder : b.border.NonNeg) (hfits : b.Fits)
    (hwidth : 0 ≤ b.contentWidth.units) (hheight : 0 ≤ b.contentHeight.units) (style : StyleId) :
    (b.fragment style).Nested ∧ (b.fragment style).contentBox.size = ⟨b.contentWidth, b.contentHeight⟩ := by
  obtain ⟨htop, hright, hbottom, hleft⟩ := hpadding
  obtain ⟨hborderTop, hborderRight, hborderBottom, hborderLeft⟩ := hborder
  obtain ⟨hx, hx', -⟩ := origin_insets hleft hborderLeft hfits.x
  obtain ⟨hy, hy', -⟩ := origin_insets htop hborderTop hfits.y
  obtain ⟨hborderW, hpaddingW, hcontentW⟩ := size_insets hleft hright hborderLeft hborderRight hwidth hfits.width rfl rfl
  obtain ⟨hborderH, hpaddingH, hcontentH⟩ := size_insets htop hbottom hborderTop hborderBottom hheight hfits.height rfl rfl
  -- the sizes and the places of the three boxes
  have borderW : (b.fragment style).borderBox.size.w.units = _ := hborderW
  have borderH : (b.fragment style).borderBox.size.h.units = _ := hborderH
  have borderX : (b.fragment style).borderBox.origin.x.units = b.origin.x.units := rfl
  have borderY : (b.fragment style).borderBox.origin.y.units = b.origin.y.units := rfl
  have paddingW : (b.fragment style).paddingBox.size.w.units = _ := hpaddingW
  have paddingH : (b.fragment style).paddingBox.size.h.units = _ := hpaddingH
  have paddingX : (b.fragment style).paddingBox.origin.x.units = _ := hx
  have paddingY : (b.fragment style).paddingBox.origin.y.units = _ := hy
  have contentW : (b.fragment style).contentBox.size.w = b.contentWidth := hcontentW
  have contentH : (b.fragment style).contentBox.size.h = b.contentHeight := hcontentH
  have contentX : (b.fragment style).contentBox.origin.x.units = _ := hx'
  have contentY : (b.fragment style).contentBox.origin.y.units = _ := hy'
  have hsize : (b.fragment style).contentBox.size = ⟨b.contentWidth, b.contentHeight⟩ := by rw [← contentW, ← contentH]
  refine ⟨⟨⟨?_, ?_, ?_, ?_⟩, ⟨?_, ?_, ?_, ?_⟩, ?_, ⟨?_, ?_⟩, ⟨?_, ?_⟩⟩, hsize⟩
  -- the content box in the padding box
  · omega
  · omega
  · rw [contentW]
    omega
  · rw [contentH]
    omega
  -- the padding box in the border box
  · omega
  · omega
  · omega
  · omega
  -- the three sizes
  · rw [hsize]
    exact ⟨hwidth, hheight⟩
  · omega
  · omega
  · omega
  · omega

/-- A move that does not saturate keeps the boxes of a fragment within each other. -/
theorem nested_shiftFragment {f : Fragment} {d : Au × Au} (h : f.Nested) (hfits : f.ShiftFits d) :
    (shiftFragment d.1 d.2 f).Nested := by
  obtain ⟨hcontent, hpadding, hcontentSize, hpaddingSize, hborderSize⟩ := h
  obtain ⟨hborderX, hborderY⟩ := hfits f.borderBox (by simp)
  obtain ⟨hpaddingX, hpaddingY⟩ := hfits f.paddingBox (by simp)
  obtain ⟨hcontentX, hcontentY⟩ := hfits f.contentBox (by simp)
  have within : ∀ {inner outer : Rect}, inner.Within outer → inner.origin.x.AddFits d.1 → inner.origin.y.AddFits d.2 →
      outer.origin.x.AddFits d.1 → outer.origin.y.AddFits d.2 →
      (shiftRect d.1 d.2 inner).Within (shiftRect d.1 d.2 outer) := by
    intro inner outer ⟨hleft, htop, hright, hbottom⟩ hx hy hx' hy'
    refine ⟨?_, ?_, ?_, ?_⟩
    all_goals
      simp only [shiftRect, hx.units_saturatingAdd, hy.units_saturatingAdd, hx'.units_saturatingAdd, hy'.units_saturatingAdd]
      omega
  exact ⟨within hcontent hcontentX hcontentY hpaddingX hpaddingY, within hpadding hpaddingX hpaddingY hborderX hborderY,
    hcontentSize, hpaddingSize, hborderSize⟩

end Block

end ChromeLight
