import ChromeLight.Shading
import ChromeLight.Theorems.GlyphRuns

/-!
# The effect of the calls on a pixel

The clip rect on top of the stack agrees, as a box, with the canvas and all open clips together (`Clips.agrees`). Inside any clip that
agrees with it, the calls that the rasterizer makes for an item do to a pixel what the item means for the pixel (`step_shades`), and so
do those it makes for a list of items (`execute_shades`).
-/

namespace ChromeLight

open Paint (RectFits rectIsValid_iff)

namespace Gfx

/-! ## Clips -/

/-- A rect has an inside exactly if it is not empty. -/
theorem region_nonempty {r : Rect} : r.region.Nonempty ↔ ¬r.isEmpty = true := by
  simp only [Box.Nonempty, Rect.region, Rect.isEmpty, Bool.or_eq_true, decide_eq_true_eq, Au.le_iff, Au.units_zero]
  omega

/-- The intersection of rects is that of their regions. -/
theorem intersect_agrees {a b : Rect} (ha : RectFits a) (hb : RectFits b) :
    (intersect .saturating a b).run.region.Agrees (a.region.inter b.region) := by
  have hright := units_right ha
  have hbottom := units_bottom ha
  have hright' := units_right hb
  have hbottom' := units_bottom hb
  rw [intersect_saturating]
  by_cases hover : min a.right b.right ≤ max a.origin.x b.origin.x ∨ min a.bottom b.bottom ≤ max a.origin.y b.origin.y
  · rw [if_pos hover]
    refine .of_empty (by decide) ?_
    simp only [Au.le_iff, Au.units_min, Au.units_max, hright, hbottom, hright', hbottom'] at hover
    simp only [Box.Nonempty, Box.inter, Rect.region]
    omega
  · obtain ⟨hx, hy⟩ := subFits_of_overlap ha hover
    rw [if_neg hover]
    intro _
    simp only [Rect.region, Box.inter, hx.units_saturatingSub, hy.units_saturatingSub, Au.units_min, Au.units_max, hright, hbottom,
      hright', hbottom', Box.mk.injEq, true_and]
    omega

variable {bounds : Rect} {opens : List Rect} {s s' : RasterState}

/-- The intersection of clips is that of their regions. -/
theorem foldl_intersect_agrees (hb : IsCanvas bounds) (hf : ∀ rect ∈ opens, RectFits rect) {clip : Rect} (hc : InCanvas bounds clip) :
    (opens.foldl (fun clip rect => (intersect .saturating clip rect).run) clip).region.Agrees
      (clip.region.interAll (opens.map Rect.region)) := by
  induction opens generalizing clip with
  | nil => exact .refl _
  | cons rect opens ih =>
    have hfits := hc.fits hb
    have hrect := hf rect List.mem_cons_self
    obtain ⟨-, hin, -⟩ := intersect_spec hb hfits hrect (.inl hc)
    exact (ih (fun r h => hf r (List.mem_cons_of_mem _ h)) hin).trans ((intersect_agrees hfits hrect).interAll _)

/-- The innermost clip is the canvas and all open clips together. -/
theorem Clips.agrees (hb : IsCanvas bounds) (h : Clips bounds opens s) :
    (s.clip bounds).region.Agrees (bounds.region.interAll (opens.map Rect.region)) := by
  rw [h.clip_eq]
  exact foldl_intersect_agrees hb h.fits hb.inCanvas

/-! ## The effect of calls -/

/-- The backend fills with a brush: pixel by pixel, and onto a pixmap of the same size. -/
structure Backend.FillsWith (Γ : Backend) (brush : Brush) : Prop where
  size : ∀ p left top right bottom color, (Γ.fillRect p left top right bottom color).width = p.width ∧
    (Γ.fillRect p left top right bottom color).height = p.height
  pixel : ∀ p left top right bottom color x y, (Γ.fillRect p left top right bottom color).pixel x y = (p.pixel x y).map fun c =>
    if brush.covers p.width p.height ⟨left.units, top.units, right.units, bottom.units⟩ x y then brush.paint color c else c

/-- Fill pixel by pixel. -/
def Brush.fillRect (brush : Brush) (p : Pixmap) (left top right bottom : Au) (color : Rgba8) : Pixmap where
  width := p.width
  height := p.height
  pixels := p.pixels.mapIdx fun i c =>
    if brush.covers p.width p.height ⟨left.units, top.units, right.units, bottom.units⟩ (i % p.width.toNat : Nat)
      (i / p.width.toNat : Nat) then brush.paint color c else c
  size := List.length_mapIdx.trans p.size

/-- A brush for the pixels whose centers are in the region. -/
def Brush.sample : Brush where
  covers _ _ region x y := (region.left ≤ 60 * x + 30 ∧ 60 * x + 30 < region.right) ∧ region.top ≤ 60 * y + 30 ∧ 60 * y + 30 < region.bottom
  paint color := composite .sample color 255

/-- A backend that fills pixel by pixel fills with its brush. -/
theorem Backend.fillsWith_of_fillRect {Γ : Backend} {brush : Brush} (hfill : Γ.fillRect = brush.fillRect) : Γ.FillsWith brush where
  size p left top right bottom color := by
    rw [hfill]
    exact ⟨rfl, rfl⟩
  pixel p left top right bottom color x y := by
    rw [hfill]
    unfold Pixmap.pixel
    show (if (0 ≤ x ∧ x < p.width.toNat) ∧ 0 ≤ y ∧ y < p.height.toNat then
      (brush.fillRect p left top right bottom color).pixels[y.toNat * p.width.toNat + x.toNat]? else none) = _
    by_cases h : (0 ≤ x ∧ x < p.width.toNat) ∧ 0 ≤ y ∧ y < p.height.toNat
    · have hcol : (y.toNat * p.width.toNat + x.toNat) % p.width.toNat = x.toNat := by
        rw [Nat.mul_add_mod_self_right, Nat.mod_eq_of_lt (by omega)]
      have hrow : (y.toNat * p.width.toNat + x.toNat) / p.width.toNat = y.toNat := by
        rw [Nat.mul_comm, Nat.mul_add_div (by omega), Nat.div_eq_of_lt (by omega), Nat.add_zero]
      rw [if_pos h, if_pos h, Brush.fillRect, List.getElem?_mapIdx, hcol, hrow, Int.toNat_of_nonneg h.1.1, Int.toNat_of_nonneg h.2.1]
    · rw [if_neg h, if_neg h]
      rfl

/-- That brush, and a face whose glyphs are single opaque pixels. -/
def Backend.brushed : Backend := { Backend.sample with fillRect := Brush.sample.fillRect }

/-- That brush, and a face whose glyphs are squares of three pixels, two of them above the baseline. -/
def Backend.squares : Backend :=
  { Backend.brushed with render := fun _ _ _ => some ⟨0, 2, 3, 3, List.replicate 9 255⟩ }

/-- What some calls do to a pixel of a pixmap of that size. -/
def Shades (Γ : Backend) (width height : UInt32) (x y : Int) (draws : List Draw)
    (f : PremultipliedColorU8 → PremultipliedColorU8) : Prop :=
  ∀ p : Pixmap, p.width = width ∧ p.height = height →
    ((draws.foldl (Draw.exec Γ) p).width = width ∧ (draws.foldl (Draw.exec Γ) p).height = height) ∧
      (draws.foldl (Draw.exec Γ) p).pixel x y = (p.pixel x y).map f

variable {Γ : Backend} {brush : Brush} {width height : UInt32} {x y : Int} {draws draws' : List Draw}
  {f g : PremultipliedColorU8 → PremultipliedColorU8}

/-- No draws change nothing. -/
theorem Shades.nil : Shades Γ width height x y [] id := fun _ hp => ⟨hp, Option.map_id'.symm⟩

/-- Draws one after another. -/
theorem Shades.append (h : Shades Γ width height x y draws f) (h' : Shades Γ width height x y draws' g) :
    Shades Γ width height x y (draws ++ draws') fun c => g (f c) := by
  intro p hp
  obtain ⟨hsize, hpixel⟩ := h p hp
  obtain ⟨hsize', hpixel'⟩ := h' _ hsize
  rw [List.foldl_append]
  refine ⟨hsize', ?_⟩
  rw [hpixel', hpixel, Option.map_map]
  rfl

namespace Shading

/-! ## What agreeing boxes mean -/

variable {clip clip' region region' : Box Int} {c : PremultipliedColorU8}

/-- A fill depends on what the clip and the region hold only. -/
theorem fill_congr (hclip : clip.Agrees clip') (hregion : region.Agrees region') (color : Rgba8) (c : PremultipliedColorU8) :
    fill brush width height x y clip color region c = fill brush width height x y clip' color region' c := by
  have hboth : (region.inter clip).Agrees (region'.inter clip') := (hregion.inter_left clip).trans (hclip.inter_right region')
  unfold fill
  by_cases hne : (region.inter clip).Nonempty
  · rw [hboth (.inl hne)]
  · have hne' := mt hboth.nonempty_iff.2 hne
    rw [if_neg fun h => hne h.2.1, if_neg fun h => hne' h.2.1]

/-- Outside of the clip nothing is filled. -/
theorem fill_of_empty (h : ¬(region.inter clip).Nonempty) (color : Rgba8) : fill brush width height x y clip color region c = c :=
  if_neg fun hfill => h hfill.2.1

/-- A border depends on what the clip holds only. -/
theorem border_congr (hclip : clip.Agrees clip') (box : Box Int) (widths : Sides Au) (colors : Sides Rgba8)
    (c : PremultipliedColorU8) :
    border brush width height x y clip box widths colors c = border brush width height x y clip' box widths colors c :=
  List.foldl_ext _ _ c fun c side _ => fill_congr hclip (.refl side.1) side.2 c

/-- A pixel has an inside. -/
theorem pixelRegion_nonempty (x y : Int) : (pixelRegion x y).Nonempty := by
  simp only [Box.Nonempty, pixelRegion]
  omega

/-- Text depends on what the clip holds only. -/
theorem text_congr (hclip : clip.Agrees clip') (run : GlyphRun) (c : PremultipliedColorU8) :
    text Γ x y clip run c = text Γ x y clip' run c := by
  have hwithin := hclip.within_iff (pixelRegion_nonempty x y)
  simp only [text, hwithin]

end Shading

/-! ## Fills -/

/-- What filling a rect does to one pixel. -/
theorem pixel_toSkia (hΓ : Γ.FillsWith brush) {r : Rect} (hr : RectFits r) (color : Rgba8) (p : Pixmap) :
    (Draw.exec Γ p (toSkia .saturating r color).run).pixel x y = (p.pixel x y).map fun c =>
      if brush.covers p.width p.height r.region x y then brush.paint color c else c := by
  have hedges : r.region = ⟨r.origin.x.units, r.origin.y.units, r.right.units, r.bottom.units⟩ := by
    rw [units_right hr, units_bottom hr]
    rfl
  rw [hedges]
  exact hΓ.pixel ..

/-- Filling a rect inside a clip of the canvas fills its region inside the clip. -/
theorem fill_shades (hΓ : Γ.FillsWith brush) (hb : IsCanvas bounds) {rect clip : Rect} (hr : RectFits rect)
    (hc : InCanvas bounds clip) (color : Rgba8) :
    Shades Γ width height x y (fill .saturating rect color clip).run
      (Shading.fill brush width height x y clip.region color rect.region) := by
  have hagrees := intersect_agrees hr (hc.fits hb)
  have hin := (intersect_spec hb hr (hc.fits hb) (.inr hc)).2.1.fits hb
  rw [fill_saturating]
  by_cases ha : color.a = 0
  · have hid : Shading.fill brush width height x y clip.region color rect.region = id := funext fun c => if_neg fun h => h.1 ha
    rw [if_pos ha, hid]
    exact .nil
  rw [if_neg ha]
  by_cases hempty : (intersect .saturating rect clip).run.isEmpty = true
  · have hid : Shading.fill brush width height x y clip.region color rect.region = id :=
      funext fun c => Shading.fill_of_empty (mt hagrees.nonempty_iff.2 fun hne => region_nonempty.1 hne hempty) color
    rw [if_pos hempty, hid]
    exact .nil
  rw [if_neg hempty]
  have hne := hagrees.nonempty_iff.1 (region_nonempty.2 hempty)
  rintro p ⟨rfl, rfl⟩
  refine ⟨hΓ.size .., (pixel_toSkia hΓ hin color p).trans ?_⟩
  rw [hagrees (.inr hne)]
  refine congrArg (fun f => Option.map f _) (funext fun c => ?_)
  simp only [Shading.fill, ha, hne, ne_eq, not_false_eq_true, true_and]

/-- What filling rects does to one pixel. -/
theorem fillAll_shades (hΓ : Γ.FillsWith brush) (hb : IsCanvas bounds) {clip : Rect} (hc : InCanvas bounds clip)
    {strips : List (Rect × Rgba8)} (hs : ∀ strip ∈ strips, RectFits strip.1) :
    Shades Γ width height x y (fillAll .saturating clip strips).run fun c =>
      strips.foldl (fun c strip => Shading.fill brush width height x y clip.region strip.2 strip.1.region c) c := by
  induction strips with
  | nil => exact .nil
  | cons strip strips ih =>
    exact (fill_shades hΓ hb (hs strip List.mem_cons_self) hc strip.2).append (ih fun strip h => hs strip (List.mem_cons_of_mem _ h))

/-- The strips of a border are its sides, apart from sides that are empty. -/
theorem foldl_strips {rect : Rect} {widths : Sides Au} (hr : RectFits rect) (hf : WidthsFit rect widths) (colors : Sides Rgba8)
    (clip : Box Int) (c : PremultipliedColorU8) :
    (strips rect widths colors).foldl (fun c strip => Shading.fill brush width height x y clip strip.2 strip.1.region c) c =
      Shading.border brush width height x y clip rect.region widths colors c := by
  obtain ⟨h1, h2, h3, h4⟩ := strips_units hr hf
  obtain ⟨ht, hri, hbo, hl⟩ := hf
  have htop : rect.region.inter ⟨rect.region.left, rect.region.top, rect.region.right, rect.region.top + widths.top.units⟩ =
      Rect.region ⟨rect.origin, ⟨rect.size.w, widths.top⟩⟩ := by
    simp only [Box.inter, Rect.region, Box.mk.injEq]
    omega
  have hbottom : rect.region.inter ⟨rect.region.left, rect.region.bottom - widths.bottom.units, rect.region.right,
      rect.region.bottom⟩ =
      Rect.region ⟨⟨rect.origin.x, rect.bottom.saturatingSub widths.bottom⟩, ⟨rect.size.w, widths.bottom⟩⟩ := by
    simp only [Box.inter, Rect.region, Box.mk.injEq, h1]
    omega
  by_cases hband : (rect.size.h.saturatingSub widths.top).saturatingSub widths.bottom ≤ .zero
  · -- between the top and the bottom one there is no room for the others
    have hempty : ∀ left right, ¬((rect.region.inter ⟨left, rect.region.top + widths.top.units, right,
        rect.region.bottom - widths.bottom.units⟩).inter clip).Nonempty := by
      rw [Au.le_iff, Au.units_zero, h3] at hband
      intro left right hne
      have := hne.of_inter.2
      simp only [Box.inter, Rect.region] at this
      omega
    simp only [strips, if_pos hband, Shading.border, Shading.borderSides, List.foldl_cons, List.foldl_nil, htop, hbottom,
      Shading.fill_of_empty (hempty _ _)]
  · have hleft : rect.region.inter ⟨rect.region.left, rect.region.top + widths.top.units, rect.region.left + widths.left.units,
        rect.region.bottom - widths.bottom.units⟩ =
        Rect.region ⟨⟨rect.origin.x, rect.origin.y.saturatingAdd widths.top⟩,
          ⟨widths.left, (rect.size.h.saturatingSub widths.top).saturatingSub widths.bottom⟩⟩ := by
      simp only [Box.inter, Rect.region, Box.mk.injEq, h2, h3]
      omega
    have hright : rect.region.inter ⟨rect.region.right - widths.right.units, rect.region.top + widths.top.units,
        rect.region.right, rect.region.bottom - widths.bottom.units⟩ =
        Rect.region ⟨⟨rect.right.saturatingSub widths.right, rect.origin.y.saturatingAdd widths.top⟩,
          ⟨widths.right, (rect.size.h.saturatingSub widths.top).saturatingSub widths.bottom⟩⟩ := by
      simp only [Box.inter, Rect.region, Box.mk.injEq, h2, h3, h4]
      omega
    simp only [strips, if_neg hband, Shading.border, Shading.borderSides, List.cons_append, List.nil_append, List.foldl_cons,
      List.foldl_nil, htop, hbottom, hleft, hright]

/-! ## Text -/

/-- The pen is at the nearest pixel. -/
theorem roundPx_eq_nearest {a b : Au} (h : a.AddFits b) : roundPx (a.saturatingAdd b) = Shading.nearest (a.units + b.units) := by
  have hsum := h.units_saturatingAdd
  unfold roundPx Shading.nearest
  split <;> omega

/-- The coverage inside a clip. -/
theorem shownMask_eq (bitmap : GlyphBitmap) (penX penY : Int) (clip : PixelClip) (x y : Int) :
    shownMask bitmap penX penY clip x y = if clip.Contains x y then bitmap.maskAt penX penY x y else none := by
  unfold shownMask GlyphBitmap.maskAt
  by_cases h : clip.Contains x y
  · simp only [h, true_and, if_true]
  · simp only [h, false_and, if_false]

/-- What a run does to a pixel inside a pixel clip, and outside of it. -/
theorem runEffect_eq {run : GlyphRun} (hg : glyphsFit run = true) (pixels : PixelClip) (x y : Int) (c : PremultipliedColorU8) :
    runEffect Γ run pixels x y c = if pixels.Contains x y then run.glyphs.foldl (Shading.glyph Γ x y run) c else c := by
  unfold runEffect
  by_cases h : pixels.Contains x y
  · rw [if_pos h]
    refine List.foldl_ext _ _ c fun c g hmem => ?_
    have hfits := List.all_eq_true.1 hg g hmem
    simp only [Bool.and_eq_true, Au.isSome_checkedAdd] at hfits
    rw [roundPx_eq_nearest hfits.1, roundPx_eq_nearest hfits.2, shownMask_eq, if_pos h]
    unfold Shading.glyph rasterized
    dsimp only
    rcases GlyphBitmap.maskAt .. with _ | mask <;> rfl
  · rw [if_neg h]
    simp only [shownMask_eq, if_neg h, touch, List.foldl_fixed]

/-- Draws keep the size of the pixmap. -/
theorem size_foldl_exec {run : GlyphRun} {pixels : PixelClip} {glyphs : List Glyph} {p : Pixmap}
    (h : p.width = width ∧ p.height = height) :
    ((glyphs.map (glyphDraw run pixels)).foldl (Draw.exec Γ) p).width = width ∧
      ((glyphs.map (glyphDraw run pixels)).foldl (Draw.exec Γ) p).height = height := by
  induction glyphs generalizing p with
  | nil => exact h
  | cons g glyphs ih => exact ih h

/-- The pixel clip contains the pixels whose points are all inside the clip. -/
theorem pixelClip_contains_iff {clip : Rect} (hc : RectFits clip) (x y : Int) :
    (∃ pixels, (pixelClip .saturating clip).run = some pixels ∧ pixels.Contains x y) ↔ (pixelRegion x y).Within clip.region := by
  rw [pixelClip_contains hc, forall_pixel]
  rfl

/-- What a run does to one pixel. -/
theorem run_shades {fonts : FontDb} {run : GlyphRun} {clip : Rect} (hc : RectFits clip) (hg : glyphsFit run = true)
    (h : (paintRun .saturating fonts run clip).run = .ok draws) :
    Shades Γ width height x y draws (Shading.text Γ x y clip.region run) := by
  have hwithin := pixelClip_contains_iff hc x y
  rw [paintRun_saturating_eq_runPlan] at h
  unfold runPlan at h
  cases hface : fonts run.font with
  | none =>
    rw [hface] at h
    cases h
  | some face =>
    simp only [hface] at h
    by_cases hskip : run.glyphs.isEmpty ∨ run.color.a = 0
    · rw [if_pos hskip] at h
      have hid : Shading.text Γ x y clip.region run = id := by
        funext c
        unfold Shading.text
        rcases hskip with hskip | hskip
        · rw [List.isEmpty_iff.1 hskip, List.foldl_nil, ite_self]
          rfl
        · exact if_neg fun h => h.1 hskip
      obtain rfl := Except.ok.inj h
      rw [hid]
      exact .nil
    rw [if_neg hskip] at h
    cases hpixels : (pixelClip .saturating clip).run with
    | none =>
      rw [hpixels] at h hwithin
      have hid : Shading.text Γ x y clip.region run = id := by
        funext c
        refine if_neg fun h => ?_
        obtain ⟨_, hnone, -⟩ := hwithin.2 h.2.2
        cases hnone
      obtain rfl := Except.ok.inj h
      rw [hid]
      exact .nil
    | some pixels =>
      simp only [hpixels] at h hwithin
      by_cases hsize : run.size ≤ .zero ∨ maxGlyphPx < run.size
      · rw [if_pos hsize] at h
        have hid : Shading.text Γ x y clip.region run = id := by
          funext c
          refine if_neg fun h => ?_
          rcases hsize with hsize | hsize
          · exact absurd h.2.1.1 (not_lt.2 hsize)
          · exact absurd h.2.1.2 (not_le.2 hsize)
        obtain rfl := Except.ok.inj h
        rw [hid]
        exact .nil
      rw [if_neg hsize] at h
      split at h
      · cases h
      · obtain rfl := Except.ok.inj h
        rw [not_or, not_le, not_lt] at hsize
        have heffect : Shading.text Γ x y clip.region run = runEffect Γ run pixels x y := by
          funext c
          have hin : pixels.Contains x y ↔ (pixelRegion x y).Within clip.region := by
            rw [← hwithin]
            simp
          simp only [Shading.text, runEffect_eq hg, hin, hsize, and_self, true_and, ne_eq, mt Or.inr hskip, not_false_eq_true]
        rw [heffect]
        intro p hp
        exact ⟨size_foldl_exec hp, pixel_foldl_exec run pixels run.glyphs p x y⟩

/-! ## Items -/

/-- The clips that are open, as regions. -/
theorem opened_map (opens : List Rect) (item : DisplayItem) :
    Shading.opened (opens.map Rect.region) item = (Paint.clipStep opens item).map Rect.region := by
  cases item with
  | pushClip rect => simp only [Shading.opened, Paint.clipStep, List.map_append, List.map_cons, List.map_nil]
  | popClip => exact List.map_dropLast.symm
  | _ => rfl

variable {fonts : FontDb} {inflated : InflatedBounds} {depth : Nat} {item : DisplayItem}

/-- The calls for an accepted item do to a pixel what the item means inside the canvas and the open clips. -/
theorem step_shades (hΓ : Γ.FillsWith brush) (hb : IsCanvas bounds) (h : Clips bounds opens s) (hi : item.Fits inflated depth)
    (hs : (step .saturating fonts bounds s item).run = .ok s') : ∃ draws, s'.draws = s.draws ++ draws ∧
      Shades Γ width height x y draws fun c =>
        Shading.item Γ brush width height x y (bounds.region.interAll (opens.map Rect.region)) c item := by
  have hclip := h.inCanvas hb
  have hagrees := h.agrees hb
  cases item with
  | rect rect color =>
    refine ⟨_, (congrArg RasterState.draws (Except.ok.inj hs)).symm, ?_⟩
    simp only [Shading.item, ← Shading.fill_congr hagrees (.refl rect.region)]
    exact fill_shades hΓ hb (rectIsValid_iff.1 hi.1) hclip color
  | border rect widths colors =>
    have hr := rectIsValid_iff.1 hi.1.1
    have hf := clampWidths_fit hr widths
    refine ⟨_, (congrArg RasterState.draws (Except.ok.inj hs)).symm, ?_⟩
    simp only [Shading.item, ← Shading.border_congr hagrees]
    rw [clampWidths_of_valid hi.2] at hf
    simp only [← foldl_strips hr hf]
    show Shades Γ width height x y (fillAll .saturating (s.clip bounds) (borderStrips .saturating rect widths colors).run).run _
    rw [borderStrips_saturating, clampWidths_of_valid hi.2]
    exact fillAll_shades hΓ hb hclip fun strip hstrip => (strips_within hr hf colors strip hstrip).fits hr
  | text run =>
    simp only [step, Id.run_bind] at hs
    cases hp : (paintRun .saturating fonts run (s.clip bounds)).run with
    | error e =>
      rw [hp] at hs
      cases hs
    | ok draws =>
      rw [hp] at hs
      refine ⟨draws, (congrArg RasterState.draws (Except.ok.inj hs)).symm, ?_⟩
      simp only [Shading.item, ← Shading.text_congr hagrees]
      exact run_shades (hclip.fits hb) hi.2.2 hp
  | pushClip rect =>
    obtain rfl := Except.ok.inj hs
    exact ⟨[], (List.append_nil _).symm, .nil⟩
  | popClip =>
    obtain rfl := Except.ok.inj hs
    refine ⟨[], ?_, .nil⟩
    split <;> exact (List.append_nil _).symm

/-- The calls for some accepted items do to a pixel what the items mean, one after the other. -/
theorem execute_shades (hΓ : Γ.FillsWith brush) (hb : IsCanvas bounds) {items : List DisplayItem} (h : Clips bounds opens s)
    (hi : ItemsFit inflated opens.length items) (hs : (execute .saturating fonts bounds s items).run = .ok s') :
    ∃ draws, s'.draws = s.draws ++ draws ∧ Shades Γ width height x y draws fun c =>
      Shading.items Γ brush width height x y bounds.region (opens.map Rect.region) c items := by
  induction items generalizing s opens with
  | nil =>
    obtain rfl := Except.ok.inj hs
    exact ⟨[], (List.append_nil _).symm, .nil⟩
  | cons item items ih =>
    simp only [execute, Id.run_bind] at hs
    cases hstep : (step .saturating fonts bounds s item).run with
    | error e =>
      rw [hstep] at hs
      cases hs
    | ok s₁ =>
      rw [hstep] at hs
      obtain ⟨draws, hdraws, hshades⟩ := step_shades hΓ hb h hi.1 hstep
      obtain ⟨h1, hlen⟩ := h.step hi.1 hstep
      obtain ⟨rest, hrest, hshades'⟩ := ih h1 (hlen ▸ hi.2) hs
      refine ⟨draws ++ rest, by rw [hrest, hdraws, List.append_assoc], ?_⟩
      simp only [Shading.items, opened_map]
      exact hshades.append hshades'

end Gfx

end ChromeLight
