import ChromeLight.Block

/-!
# The box model against the equations of CSS

A percentage `max-height` against an indefinite height should bound nothing. `resolveBoxModel` resolves it against zero instead,
so it always leaves a bound in the model (`percentMaxHeight_binds`), and the used height of the box, container or leaf, agrees
with the one without `max-height` exactly where the box asks for no more height than that bound or its `min-height`.

The width equation holds as CSS has it (`resolveWidthAndMargins_equation`): the content width keeps to its bounds, and the
margins, border, padding and content fill the containing block wherever something in the equation is `auto` and there is room.
-/

namespace ChromeLight

namespace Block

theorem units_clampAu_some (v min max : Au) :
    (clampAu v min (some max)).units = Min.min (Max.max v.units min.units) (Max.max max.units min.units) := by
  simp only [clampAu, Option.map_some, Au.units_min, Au.units_max]

theorem units_clampAu_none (v min : Au) : (clampAu v min none).units = Max.max v.units min.units := by
  simp only [clampAu, Option.map_none, Au.units_max]

/-- A bound makes no difference exactly to what is no more than it or the lower bound. -/
theorem clampAu_some_eq_none_iff {v min max : Au} :
    clampAu v min (some max) = clampAu v min none ↔ v.units ≤ Max.max max.units min.units := by
  rw [Au.ext_iff_units, units_clampAu_some, units_clampAu_none]
  omega

/-! ## A percentage `max-height` without a height to resolve it against -/

variable (Γ : FloatOps) (style : LayoutStyle) (cbWidth : Au)

/-- A style without a bound on its height. -/
def withoutMaxHeight : LayoutStyle := { style with maxHeight := none }

/-- The border and padding of a box along the block axis. -/
def verticalNonContentOf : Au :=
  verticalNonContent
    { top := resolveLenZero Γ style.padding.top cbWidth
      right := resolveLenZero Γ style.padding.right cbWidth
      bottom := resolveLenZero Γ style.padding.bottom cbWidth
      left := resolveLenZero Γ style.padding.left cbWidth } style.borderWidth

/-- The content height a box has by its style's length, or is given by its content. -/
def askedHeight (content : Au) : Au :=
  match style.height with
  | .px length => usedContentSize length style.boxSizing (verticalNonContentOf Γ style cbWidth)
  | .auto | .percent _ => content

/-- The used lower bound of the height, where there is no height to resolve a percentage against. -/
def indefiniteMinHeight : Au :=
  usedContentSize (resolveLenZero Γ style.minHeight .zero) style.boxSizing (verticalNonContentOf Γ style cbWidth)

/-- What a percentage of zero becomes as a content height. -/
def percentOfZero (p : F32) : Au :=
  usedContentSize (Γ.mulByF32 .zero (Γ.div p .hundred)) style.boxSizing (verticalNonContentOf Γ style cbWidth)

/-- The box asks for no more height than the larger of its lower bound and what the percentage of zero becomes. -/
def AsksWithin (p : F32) (content : Au) : Prop :=
  (askedHeight Γ style cbWidth content).units ≤
    max (percentOfZero Γ style cbWidth p).units (indefiniteMinHeight Γ style cbWidth).units

/-- The frame of a container whose box has that model. -/
def Frame.withModel (frame : Frame) (model : BoxModel) : Frame :=
  { frame with knownHeight := model.knownHeight, minHeight := model.minHeight, maxHeight := model.maxHeight }

/-- The height of a container's children, with the last bottom margin where it does not collapse with the container's. -/
def Frame.childrenHeight (frame : Frame) : Au :=
  frame.runningContentBottom.saturatingAdd
    (if frame.bottomCollapseEligible then .zero else frame.prevMarginBottom.getD .zero)

/-- Without a height to resolve it against, `max-height` is as good as absent: it changes neither the box model nor the used
height of a leaf or of a container, whatever they hold. -/
structure IgnoresMaxHeight : Prop where
  model : resolveBoxModel Γ style cbWidth none = resolveBoxModel Γ (withoutMaxHeight style) cbWidth none
  leaf : ∀ fragStart child (placement : ChildPlacement) lines content,
    (finishedLeaf fragStart child { placement with model := resolveBoxModel Γ style cbWidth none } lines
        content).contentHeight =
      (finishedLeaf fragStart child { placement with model := resolveBoxModel Γ (withoutMaxHeight style) cbWidth none } lines
        content).contentHeight
  container : ∀ frame : Frame, (frame.withModel (resolveBoxModel Γ style cbWidth none)).contentHeight =
    (frame.withModel (resolveBoxModel Γ (withoutMaxHeight style) cbWidth none)).contentHeight

variable {Γ style cbWidth} {p : F32}

variable (Γ cbWidth) in
/-- The parts of the two models that the height is made of: the percentage of zero is the only difference. -/
theorem heights_of_percent (h : style.maxHeight = some (.percent p)) :
    (resolveBoxModel Γ style cbWidth none).minHeight = indefiniteMinHeight Γ style cbWidth ∧
      (resolveBoxModel Γ style cbWidth none).maxHeight = some (percentOfZero Γ style cbWidth p) ∧
      (resolveBoxModel Γ (withoutMaxHeight style) cbWidth none).minHeight = indefiniteMinHeight Γ style cbWidth ∧
      (resolveBoxModel Γ (withoutMaxHeight style) cbWidth none).maxHeight = none := by
  refine ⟨rfl, ?_, rfl, rfl⟩
  simp only [resolveBoxModel, h, Option.map_some]
  rfl

/-- The height of a box whose content is that high, as either kind of box works it out from its model. -/
theorem getD_knownHeight (content : Au) {s : LayoutStyle} (hs : s = style ∨ s = withoutMaxHeight style) :
    ((resolveBoxModel Γ s cbWidth none).knownHeight.getD
      (clampAu content (resolveBoxModel Γ s cbWidth none).minHeight (resolveBoxModel Γ s cbWidth none).maxHeight)) =
      clampAu (askedHeight Γ style cbWidth content) (resolveBoxModel Γ s cbWidth none).minHeight
        (resolveBoxModel Γ s cbWidth none).maxHeight := by
  have key : (resolveBoxModel Γ s cbWidth none).knownHeight =
      (match s.height with
        | .px length => some (usedContentSize length s.boxSizing (verticalNonContentOf Γ s cbWidth))
        | .auto => none
        | .percent _ => none).map fun h =>
          clampAu h (resolveBoxModel Γ s cbWidth none).minHeight (resolveBoxModel Γ s cbWidth none).maxHeight := by
    cases hheight : s.height <;> simp [resolveBoxModel, resolveHeight, hheight, verticalNonContentOf]
  rw [key]
  rcases hs with rfl | rfl
  · cases hheight : s.height <;> simp [askedHeight, hheight]
  · cases hheight : style.height <;> simp [askedHeight, withoutMaxHeight, hheight, verticalNonContentOf]

/-- The two heights of such a box are the same exactly where it asks for no more than its bounds. -/
theorem heights_agree_iff (h : style.maxHeight = some (.percent p)) (content : Au) :
    ((resolveBoxModel Γ style cbWidth none).knownHeight.getD
      (clampAu content (resolveBoxModel Γ style cbWidth none).minHeight (resolveBoxModel Γ style cbWidth none).maxHeight)) =
      ((resolveBoxModel Γ (withoutMaxHeight style) cbWidth none).knownHeight.getD
        (clampAu content (resolveBoxModel Γ (withoutMaxHeight style) cbWidth none).minHeight
          (resolveBoxModel Γ (withoutMaxHeight style) cbWidth none).maxHeight)) ↔
      AsksWithin Γ style cbWidth p content := by
  obtain ⟨hmin, hmax, hmin', hmax'⟩ := heights_of_percent Γ cbWidth h
  rw [getD_knownHeight content (.inl rfl), getD_knownHeight content (.inr rfl), hmin, hmax, hmin', hmax']
  exact clampAu_some_eq_none_iff

/-- A container's height is its own, or the one of its children clamped. -/
theorem contentHeight_withModel (frame : Frame) (model : BoxModel) : (frame.withModel model).contentHeight =
    model.knownHeight.getD (clampAu frame.childrenHeight model.minHeight model.maxHeight) := by
  unfold Frame.contentHeight Frame.withModel
  cases model.knownHeight <;> rfl

variable (Γ style cbWidth p) in
/-- A percentage `max-height` is never ignored without a height to resolve it against: the box model always has a bound. The
used height of a leaf or a container is still the one without `max-height` exactly where the box asks for no more than its
lower bound or what the percentage of zero becomes. -/
theorem percentMaxHeight_binds (h : style.maxHeight = some (.percent p)) :
    ¬IgnoresMaxHeight Γ style cbWidth ∧
      (∀ fragStart child (placement : ChildPlacement) lines content,
        (finishedLeaf fragStart child { placement with model := resolveBoxModel Γ style cbWidth none } lines
            content).contentHeight =
          (finishedLeaf fragStart child
            { placement with model := resolveBoxModel Γ (withoutMaxHeight style) cbWidth none } lines
            content).contentHeight ↔ AsksWithin Γ style cbWidth p content) ∧
      ∀ frame : Frame, (frame.withModel (resolveBoxModel Γ style cbWidth none)).contentHeight =
        (frame.withModel (resolveBoxModel Γ (withoutMaxHeight style) cbWidth none)).contentHeight ↔
          AsksWithin Γ style cbWidth p frame.childrenHeight := by
  refine ⟨?_, ?_, ?_⟩
  · intro hignores
    obtain ⟨-, hmax, -, hmax'⟩ := heights_of_percent Γ cbWidth h
    rw [hignores.model, hmax'] at hmax
    cases hmax
  · intro fragStart child placement lines content
    exact heights_agree_iff h content
  · intro frame
    rw [contentHeight_withModel, contentHeight_withModel]
    exact heights_agree_iff h frame.childrenHeight

/-- `max-height: 50%` on an initial block. -/
def halfHigh : LayoutStyle :=
  { LayoutStyle.initial .sample with display := .block, maxHeight := some (.percent ⟨0x42480000⟩) }

theorem percentMaxHeight_binds_half : ¬IgnoresMaxHeight .sample halfHigh (.fromPx 800) :=
  (percentMaxHeight_binds .sample halfHigh (.fromPx 800) ⟨0x42480000⟩ rfl).1

/-- A leaf with `max-height: 50%` and lines of 100 px is 0 px high in a container of automatic height, and 100 px high without
`max-height`. -/
theorem percentMaxHeight_collapses : ¬∀ (Γ : FloatOps) (style : LayoutStyle) (cbWidth : Au) (p : F32),
    style.maxHeight = some (.percent p) → IgnoresMaxHeight Γ style cbWidth := by
  intro hall
  have hignores := hall .sample halfHigh (.fromPx 800) ⟨0x42480000⟩ rfl
  have hleaf := hignores.leaf 0 { node := none, kind := .block, style := halfHigh, children := [] }
    { model := resolveBoxModel .sample halfHigh (.fromPx 800) none, origin := .zero, effectiveMarginBottom := .zero
      cbWidth := .fromPx 800, cbHeight := none } [] (.fromPx 100)
  exact absurd hleaf (by decide)

/-! ## The width equation -/

/-- A style length that is not negative. -/
def NonNeg : Length → Prop
  | .auto => True
  | .px length => 0 ≤ length.units
  | .percent p => p.bits < 0x80000000

/-- Resolving a percentage that is not negative against a width that is not gives no negative length. -/
def PreservesNonNeg (Γ : FloatOps) : Prop :=
  ∀ (a : Au) (p : F32), 0 ≤ a.units → p.bits < 0x80000000 → 0 ≤ (Γ.mulByF32 a (Γ.div p .hundred)).units

/-- A style and a containing block to which the width equation applies. -/
structure WidthInputs (Γ : FloatOps) (style : LayoutStyle) (cbWidth : Au) (padding border : Sides Au) : Prop where
  percentages : PreservesNonNeg Γ
  cbWidth : 0 ≤ cbWidth.units
  padding : 0 ≤ padding.left.units ∧ 0 ≤ padding.right.units
  border : 0 ≤ border.left.units ∧ 0 ≤ border.right.units
  width : NonNeg style.width
  minWidth : NonNeg style.minWidth
  maxWidth : ∀ l, style.maxWidth = some l → NonNeg l

/-- The border and padding of a box along the inline axis, as an integer. -/
def inlineNonContent (padding border : Sides Au) : Int :=
  padding.left.units + padding.right.units + border.left.units + border.right.units

/-- The content size of a specified one, as an integer: `border-box` sizes include border and padding. -/
def contentSize (boxSizing : BoxSizing) (nonContent specified : Int) : Int :=
  match boxSizing with
  | .contentBox => specified
  | .borderBox => max (specified - nonContent) 0

section

variable (Γ : FloatOps) (style : LayoutStyle) (cbWidth : Au) (padding border : Sides Au)

/-- The used content width of a length. -/
def usedWidth (l : Length) : Int :=
  contentSize style.boxSizing (inlineNonContent padding border) (resolveLenZero Γ l cbWidth).units

/-- What margins, border and padding leave of the containing block, `auto` margins being zero. -/
def spaceLeft : Int :=
  cbWidth.units - (resolveLenZero Γ style.margin.left cbWidth).units - inlineNonContent padding border -
    (resolveLenZero Γ style.margin.right cbWidth).units

/-- The width before it is clamped. -/
def tentativeWidth : Int :=
  if style.width = .auto then max (spaceLeft Γ style cbWidth padding border) 0
  else usedWidth Γ style cbWidth padding border style.width

/-- What is left for `auto` margins, when the other margin is not. -/
def marginLeftOver (content : Int) (otherMargin : Au) : Int :=
  cbWidth.units - (inlineNonContent padding border + content) - otherMargin.units

/-- No sum or difference the width is worked out with leaves the app units. -/
structure NoSaturation (content : Int) : Prop where
  nonContent : inlineNonContent padding border ≤ 2147483647
  total : inlineNonContent padding border + content ≤ 2147483647
  space : style.width = .auto → cbWidth.units - (resolveLenZero Γ style.margin.left cbWidth).units ≤ 2147483647 ∧
    -2147483648 ≤ cbWidth.units - (resolveLenZero Γ style.margin.left cbWidth).units - inlineNonContent padding border ∧
    -2147483648 ≤ spaceLeft Γ style cbWidth padding border ∧ spaceLeft Γ style cbWidth padding border ≤ 2147483647
  marginLeft : style.margin.left = .auto →
    -2147483648 ≤ marginLeftOver cbWidth padding border content (resolveLenZero Γ style.margin.right cbWidth) ∧
    marginLeftOver cbWidth padding border content (resolveLenZero Γ style.margin.right cbWidth) ≤ 2147483647
  marginRight : style.margin.right = .auto →
    -2147483648 ≤ marginLeftOver cbWidth padding border content (resolveLenZero Γ style.margin.left cbWidth) ∧
    marginLeftOver cbWidth padding border content (resolveLenZero Γ style.margin.left cbWidth) ≤ 2147483647

/-- The width is not as `auto` left it: it is definite, or its bounds changed it. -/
def Settled (content : Int) : Prop := style.width ≠ .auto ∨ content ≠ tentativeWidth Γ style cbWidth padding border

/-- What the width and the margins of a box have to be. -/
structure WidthEquation (content marginLeft marginRight : Int) : Prop where
  nonneg : 0 ≤ content
  atLeast : usedWidth Γ style cbWidth padding border style.minWidth ≤ content
  atMost : ∀ l, style.maxWidth = some l → content ≤
    max (usedWidth Γ style cbWidth padding border l) (usedWidth Γ style cbWidth padding border style.minWidth)
  /-- An `auto` width that its bounds do not change fills the containing block, if there is room. -/
  fills : style.width = .auto → content = tentativeWidth Γ style cbWidth padding border →
    0 ≤ spaceLeft Γ style cbWidth padding border →
    marginLeft + inlineNonContent padding border + content + marginRight = cbWidth.units
  /-- Otherwise an `auto` margin does. -/
  autoMargin : Settled Γ style cbWidth padding border content → style.margin.left = .auto ∨ style.margin.right = .auto →
    ¬(style.margin.left = .auto ∧ style.margin.right = .auto ∧
      cbWidth.units - inlineNonContent padding border - content < 0) →
    marginLeft + inlineNonContent padding border + content + marginRight = cbWidth.units
  /-- Two `auto` margins that have nothing to share are zero. -/
  overflows : Settled Γ style cbWidth padding border content → style.margin.left = .auto → style.margin.right = .auto →
    cbWidth.units - inlineNonContent padding border - content < 0 → marginLeft = 0 ∧ marginRight = 0
  /-- Two `auto` margins share what is left, to the app unit. -/
  balanced : Settled Γ style cbWidth padding border content → style.margin.left = .auto → style.margin.right = .auto →
    0 ≤ cbWidth.units - inlineNonContent padding border - content →
    marginLeft - marginRight ≤ 1 ∧ marginRight - marginLeft ≤ 1

end

variable {padding border : Sides Au}

theorem resolveLenZero_nonneg (hΓ : PreservesNonNeg Γ) (hcb : 0 ≤ cbWidth.units) {l : Length} (hl : NonNeg l) :
    0 ≤ (resolveLenZero Γ l cbWidth).units := by
  cases l with
  | auto => exact Int.le_refl 0
  | px length => exact hl
  | percent p => exact hΓ cbWidth p hcb hl

/-- The sum of border and padding does not saturate. -/
theorem units_inlineNonContent (hpadding : 0 ≤ padding.left.units ∧ 0 ≤ padding.right.units)
    (hborder : 0 ≤ border.left.units ∧ 0 ≤ border.right.units) (hfits : inlineNonContent padding border ≤ 2147483647) :
    (((padding.left.saturatingAdd padding.right).saturatingAdd border.left).saturatingAdd border.right).units =
      inlineNonContent padding border := by
  unfold inlineNonContent at hfits ⊢
  simp only [Au.units_saturatingAdd]
  omega

theorem units_usedContentSize {specified nonContent : Au} (boxSizing : BoxSizing) (hspecified : 0 ≤ specified.units)
    (hnonContent : 0 ≤ nonContent.units) :
    (usedContentSize specified boxSizing nonContent).units = contentSize boxSizing nonContent.units specified.units := by
  have := specified.isI32
  have := nonContent.isI32
  cases boxSizing with
  | contentBox => rfl
  | borderBox =>
    simp only [usedContentSize, contentSize, Au.units_max, Au.units_saturatingSub, Au.units_zero]
    omega

theorem contentSize_nonneg {boxSizing : BoxSizing} {nonContent specified : Int} (h : 0 ≤ specified) :
    0 ≤ contentSize boxSizing nonContent specified := by
  cases boxSizing with
  | contentBox => exact h
  | borderBox => exact Int.le_max_right _ _

/-- A value between its bounds, the lower one winning. -/
theorem clampAu_bounds (v min : Au) (max : Option Au) :
    min.units ≤ (clampAu v min max).units ∧ (clampAu v min max).units ≤ Max.max v.units min.units ∧
      ∀ m, max = some m → (clampAu v min max).units ≤ Max.max m.units min.units := by
  cases max with
  | none =>
    rw [units_clampAu_none]
    refine ⟨by omega, by omega, ?_⟩
    intro m hm
    cases hm
  | some m =>
    rw [units_clampAu_some]
    refine ⟨by omega, by omega, ?_⟩
    intro m' hm
    cases hm
    omega

/-- The two margins of a box whose width is settled: `auto` ones share what the content width leaves. -/
def settledMargins (style : LayoutStyle) (cbWidth nonMarginTotal marginLeft0 marginRight0 : Au) : Au × Au :=
  if style.margin.left = .auto ∧ style.margin.right = .auto then
    let remaining := cbWidth.saturatingSub nonMarginTotal
    if remaining.units ≥ 0 then (.saturate (remaining.units / 2), .saturate (remaining.units - remaining.units / 2))
    else (.zero, .zero)
  else if style.margin.left = .auto then
    ((cbWidth.saturatingSub nonMarginTotal).saturatingSub marginRight0, marginRight0)
  else if style.margin.right = .auto then
    (marginLeft0, (cbWidth.saturatingSub nonMarginTotal).saturatingSub marginLeft0)
  else (marginLeft0, marginRight0)

/-- The margins of a settled width and what they add up to. -/
theorem settledMargins_spec (nonMarginTotal marginLeft0 marginRight0 : Au) (hcb : 0 ≤ cbWidth.units)
    (htotal : 0 ≤ nonMarginTotal.units)
    (hleft : style.margin.left = .auto → marginLeft0.units = 0 ∧
      -2147483648 ≤ cbWidth.units - nonMarginTotal.units - marginRight0.units ∧
      cbWidth.units - nonMarginTotal.units - marginRight0.units ≤ 2147483647)
    (hright : style.margin.right = .auto → marginRight0.units = 0 ∧
      -2147483648 ≤ cbWidth.units - nonMarginTotal.units - marginLeft0.units ∧
      cbWidth.units - nonMarginTotal.units - marginLeft0.units ≤ 2147483647)
    {margins : Au × Au} (hmargins : margins = settledMargins style cbWidth nonMarginTotal marginLeft0 marginRight0) :
    (style.margin.left = .auto ∨ style.margin.right = .auto →
      ¬(style.margin.left = .auto ∧ style.margin.right = .auto ∧ cbWidth.units - nonMarginTotal.units < 0) →
      margins.1.units + nonMarginTotal.units + margins.2.units = cbWidth.units) ∧
    (style.margin.left = .auto → style.margin.right = .auto →
      (cbWidth.units - nonMarginTotal.units < 0 → margins.1.units = 0 ∧ margins.2.units = 0) ∧
      (0 ≤ cbWidth.units - nonMarginTotal.units →
        margins.1.units - margins.2.units ≤ 1 ∧ margins.2.units - margins.1.units ≤ 1)) := by
  have hcb' := cbWidth.isI32
  have htotal' := nonMarginTotal.isI32
  have hremaining : (cbWidth.saturatingSub nonMarginTotal).units = cbWidth.units - nonMarginTotal.units := by
    rw [Au.units_saturatingSub]
    omega
  subst hmargins
  unfold settledMargins
  by_cases hl : style.margin.left = .auto
  · by_cases hr : style.margin.right = .auto
    · rw [if_pos ⟨hl, hr⟩]
      by_cases hpos : 0 ≤ cbWidth.units - nonMarginTotal.units
      · rw [if_pos (show (cbWidth.saturatingSub nonMarginTotal).units ≥ 0 by omega)]
        simp only [Au.units_saturate, hremaining]
        refine ⟨fun _ _ => by omega, fun _ _ => ⟨fun hneg => by omega, fun _ => by omega⟩⟩
      · rw [if_neg (show ¬(cbWidth.saturatingSub nonMarginTotal).units ≥ 0 by omega)]
        simp only [Au.units_zero]
        refine ⟨fun _ hno => absurd ⟨hl, hr, by omega⟩ hno, fun _ _ => ⟨fun _ => by simp, fun _ => by omega⟩⟩
    · obtain ⟨-, hlo, hhi⟩ := hleft hl
      rw [if_neg (fun h => hr h.2), if_pos hl]
      simp only [Au.units_saturatingSub _ marginRight0, hremaining]
      exact ⟨fun _ _ => by omega, fun _ h => absurd h hr⟩
  · rw [if_neg (fun h => hl h.1), if_neg hl]
    by_cases hr : style.margin.right = .auto
    · obtain ⟨-, hlo, hhi⟩ := hright hr
      rw [if_pos hr]
      simp only [Au.units_saturatingSub _ marginLeft0, hremaining]
      exact ⟨fun _ _ => by omega, fun h _ => absurd h hl⟩
    · exact ⟨fun h => absurd h (by simp [hl, hr]), fun h _ => absurd h hl⟩

variable (Γ style cbWidth padding border) in
/-- The code's width, and the margins it leaves as they are or settles. -/
theorem resolveWidthAndMargins_eq : ∃ nonContent tentative content : Au,
    nonContent = ((padding.left.saturatingAdd padding.right).saturatingAdd border.left).saturatingAdd border.right ∧
    tentative = (if style.width = .auto then
        max (((cbWidth.saturatingSub (resolveLenZero Γ style.margin.left cbWidth)).saturatingSub nonContent).saturatingSub
          (resolveLenZero Γ style.margin.right cbWidth)) .zero
      else usedContentSize (resolveLenZero Γ style.width cbWidth) style.boxSizing nonContent) ∧
    content = clampAu tentative (usedContentSize (resolveLenZero Γ style.minWidth cbWidth) style.boxSizing nonContent)
      (style.maxWidth.map fun l => usedContentSize (resolveLenZero Γ l cbWidth) style.boxSizing nonContent) ∧
    resolveWidthAndMargins Γ style cbWidth padding border =
      (content, if style.width = .auto ∧ content = tentative then
          (resolveLenZero Γ style.margin.left cbWidth, resolveLenZero Γ style.margin.right cbWidth)
        else settledMargins style cbWidth (nonContent.saturatingAdd content) (resolveLenZero Γ style.margin.left cbWidth)
          (resolveLenZero Γ style.margin.right cbWidth)) := by
  refine ⟨_, _, _, rfl, rfl, rfl, ?_⟩
  unfold resolveWidthAndMargins settledMargins
  dsimp only
  split_ifs <;> rfl

theorem WidthInputs.inlineNonContent_nonneg (hin : WidthInputs Γ style cbWidth padding border) :
    0 ≤ inlineNonContent padding border := by
  obtain ⟨h1, h2⟩ := hin.padding
  obtain ⟨h3, h4⟩ := hin.border
  rw [inlineNonContent]
  omega

/-- The code's content size of a length is the one of integers. -/
theorem WidthInputs.units_usedContentSize (hin : WidthInputs Γ style cbWidth padding border) {nonContent : Au}
    (hnc : nonContent.units = inlineNonContent padding border) {l : Length} (hl : NonNeg l) :
    (usedContentSize (resolveLenZero Γ l cbWidth) style.boxSizing nonContent).units =
      usedWidth Γ style cbWidth padding border l := by
  have hnc0 : 0 ≤ nonContent.units := hnc ▸ hin.inlineNonContent_nonneg
  rw [Block.units_usedContentSize _ (resolveLenZero_nonneg hin.percentages hin.cbWidth hl) hnc0, hnc, usedWidth]

/-- So is its width before the bounds, where no difference saturates. -/
theorem WidthInputs.units_tentative (hin : WidthInputs Γ style cbWidth padding border) {content : Int}
    (hfits : NoSaturation Γ style cbWidth padding border content) {nonContent tentative : Au}
    (hnc : nonContent.units = inlineNonContent padding border)
    (htentative : tentative = if style.width = .auto then
        max (((cbWidth.saturatingSub (resolveLenZero Γ style.margin.left cbWidth)).saturatingSub nonContent).saturatingSub
          (resolveLenZero Γ style.margin.right cbWidth)) .zero
      else usedContentSize (resolveLenZero Γ style.width cbWidth) style.boxSizing nonContent) :
    tentative.units = tentativeWidth Γ style cbWidth padding border := by
  have hcb := hin.cbWidth
  have hnc0 := hin.inlineNonContent_nonneg
  rw [htentative, tentativeWidth]
  by_cases hauto : style.width = .auto
  · obtain ⟨h1, h2, h3, h4⟩ := hfits.space hauto
    have := (resolveLenZero Γ style.margin.left cbWidth).isI32
    rw [if_pos hauto, if_pos hauto]
    unfold spaceLeft at h3 h4 ⊢
    simp only [Au.units_max, Au.units_saturatingSub, Au.units_zero, hnc]
    omega
  · rw [if_neg hauto, if_neg hauto]
    exact hin.units_usedContentSize hnc hin.width

variable (Γ style cbWidth padding border) in
/-- The content width and the margins the code finds satisfy the width equation, unless a sum saturates. -/
theorem resolveWidthAndMargins_equation (hin : WidthInputs Γ style cbWidth padding border)
    (hfits : NoSaturation Γ style cbWidth padding border (resolveWidthAndMargins Γ style cbWidth padding border).1.units) :
    WidthEquation Γ style cbWidth padding border (resolveWidthAndMargins Γ style cbWidth padding border).1.units
      (resolveWidthAndMargins Γ style cbWidth padding border).2.1.units
      (resolveWidthAndMargins Γ style cbWidth padding border).2.2.units := by
  obtain ⟨nonContent, tentative, content, hnonContent, htentative, hcontent, hresult⟩ :=
    resolveWidthAndMargins_eq Γ style cbWidth padding border
  rw [hresult] at hfits ⊢
  dsimp only at hfits ⊢
  have hcb := hin.cbWidth
  have hnc : nonContent.units = inlineNonContent padding border := by
    rw [hnonContent]
    exact units_inlineNonContent hin.padding hin.border hfits.nonContent
  have hnc0 := hin.inlineNonContent_nonneg
  have htent := hin.units_tentative hfits hnc htentative
  have hmin0 : 0 ≤ usedWidth Γ style cbWidth padding border style.minWidth :=
    contentSize_nonneg (resolveLenZero_nonneg hin.percentages hcb hin.minWidth)
  obtain ⟨hlower, -, hupper⟩ := clampAu_bounds tentative
    (usedContentSize (resolveLenZero Γ style.minWidth cbWidth) style.boxSizing nonContent)
    (style.maxWidth.map fun l => usedContentSize (resolveLenZero Γ l cbWidth) style.boxSizing nonContent)
  rw [← hcontent, hin.units_usedContentSize hnc hin.minWidth] at hlower hupper
  have htotal : (nonContent.saturatingAdd content).units = inlineNonContent padding border + content.units := by
    have := hfits.total
    rw [Au.units_saturatingAdd, hnc]
    omega
  have hsettled : Settled Γ style cbWidth padding border content.units ↔ ¬(style.width = .auto ∧ content = tentative) := by
    rw [Settled, ← htent, Au.ext_iff_units]
    tauto
  have hspec := settledMargins_spec (nonContent.saturatingAdd content) (resolveLenZero Γ style.margin.left cbWidth)
    (resolveLenZero Γ style.margin.right cbWidth) hcb (by rw [htotal]; omega)
    (fun hl => ⟨by rw [hl]; rfl, by rw [htotal]; exact hfits.marginLeft hl⟩)
    (fun hr => ⟨by rw [hr]; rfl, by rw [htotal]; exact hfits.marginRight hr⟩) rfl
  rw [htotal] at hspec
  refine ⟨by omega, hlower, ?_, ?_, ?_, ?_, ?_⟩
  · intro l hl
    have := hupper _ (by rw [hl]; rfl)
    rwa [hin.units_usedContentSize hnc (hin.maxWidth l hl)] at this
  · intro hauto hsame hroom
    have hcode : style.width = .auto ∧ content = tentative := ⟨hauto, Au.ext_units (by rw [htent]; exact hsame)⟩
    rw [if_pos hcode]
    dsimp only
    rw [tentativeWidth, if_pos hauto, spaceLeft] at hsame
    rw [spaceLeft] at hroom
    omega
  · intro hs hauto hroom
    rw [if_neg (hsettled.1 hs)]
    have := hspec.1 hauto (by rintro ⟨hl, hr, hneg⟩; exact hroom ⟨hl, hr, by omega⟩)
    omega
  · intro hs hl hr hneg
    rw [if_neg (hsettled.1 hs)]
    exact (hspec.2 hl hr).1 (by omega)
  · intro hs hl hr hpos
    rw [if_neg (hsettled.1 hs)]
    exact (hspec.2 hl hr).2 (by omega)

theorem preservesNonNeg_sample : PreservesNonNeg .sample := by
  intro a p ha _
  simp only [FloatOps.sample]
  split
  · rw [Au.units_saturate]
    omega
  · exact ha

/-- A block 100 px wide between `auto` margins. -/
def centred : LayoutStyle :=
  { LayoutStyle.initial .sample with
    display := .block
    width := .px (.fromPx 100)
    margin := { top := .auto, right := .auto, bottom := .auto, left := .auto } }

theorem resolveWidthAndMargins_equation_centred :
    WidthEquation .sample centred (.fromPx 800) (.uniform .zero) (.uniform .zero) 6000 21000 21000 :=
  resolveWidthAndMargins_equation .sample centred (.fromPx 800) (.uniform .zero) (.uniform .zero)
    ⟨preservesNonNeg_sample, by decide, by decide, by decide, show 0 ≤ (Au.fromPx 100).units by decide, trivial,
      by simp [centred, LayoutStyle.initial]⟩
    ⟨by decide, by decide, by simp [centred], by decide, by decide⟩

end Block

end ChromeLight
