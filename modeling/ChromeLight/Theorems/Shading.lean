import ChromeLight.Lemmas.Shading
import ChromeLight.Theorems.Paint
import ChromeLight.Theorems.Pipeline
import ChromeLight.Theorems.Raster

/-!
# What a page looks like

Every pixel of a rasterized display list has the color that its items leave there in paint order, each inside the clips that are open
around it (`rasterize_shades`): neither the clip stack nor the glyph cache shows. The painter keeps what a fragment tree means, so that
every pixel of a rendered document has the color that its fragments leave there in document order, each inside the padding boxes that
clip it (`renderBytes_shades`): neither culling nor the clamping of clips shows either.
-/

namespace ChromeLight

namespace Gfx

variable {Γ : Backend} {brush : Brush} {fonts : FontDb} {dl : DisplayList} {width height : Nat} {p : Pixmap} {stats : RasterStats}

/-! ## Display lists -/

/-- A pixmap of that size, every pixel in the color given for it. -/
structure Shaded (width height : Nat) (p : Pixmap) (shade : Int → Int → PremultipliedColorU8) : Prop where
  size : p.width.toNat = width ∧ p.height.toNat = height
  pixel : ∀ x y : Int, 0 ≤ x ∧ x < width → 0 ≤ y ∧ y < height → p.pixel x y = some (shade x y)

/-- The colors of its pixels determine a pixmap. -/
theorem Shaded.unique {shade : Int → Int → PremultipliedColorU8} {p' : Pixmap} (h : Shaded width height p shade)
    (h' : Shaded width height p' shade) : p = p' := by
  have hwidth : p.width = p'.width := UInt32.toNat_inj.1 (h.size.1.trans h'.size.1.symm)
  have hheight : p.height = p'.height := UInt32.toNat_inj.1 (h.size.2.trans h'.size.2.symm)
  have hlen : p.pixels.length = p'.pixels.length := by rw [p.size, p'.size, hwidth, hheight]
  have hpixels : p.pixels = p'.pixels := by
    refine List.ext_getElem? fun index => ?_
    by_cases hindex : index < p.pixels.length
    · obtain ⟨x, y, hx, hy, rfl⟩ := exists_coordinates hindex
      have hx' := h.size.1
      have hy' := h.size.2
      have hpixel := h.pixel x y (by omega) (by omega)
      rw [← h'.pixel x y (by omega) (by omega), pixel_eq_getElem? p hx hy, pixel_eq_getElem? p' (hwidth ▸ hx) (hheight ▸ hy),
        ← hwidth] at hpixel
      exact hpixel
    · rw [List.getElem?_eq_none (by omega), List.getElem?_eq_none (by omega)]
  cases p
  cases p'
  simp only at hwidth hheight hpixels
  subst hwidth hheight hpixels
  rfl

theorem pixel_white {width height : UInt32} {x y : Int} (hx : 0 ≤ x ∧ x < width.toNat) (hy : 0 ≤ y ∧ y < height.toNat) :
    (Pixmap.white width.toNat height.toNat).pixel x y = some Shading.white := by
  have ew : (Pixmap.white width.toNat height.toNat).width = width := UInt32.ofNat_toNat
  have eh : (Pixmap.white width.toNat height.toNat).height = height := UInt32.ofNat_toNat
  have hindex : y.toNat * width.toNat + x.toNat < width.toNat * height.toNat := by
    calc y.toNat * width.toNat + x.toNat < y.toNat * width.toNat + width.toNat := by omega
      _ = (y.toNat + 1) * width.toNat := (Nat.succ_mul ..).symm
      _ ≤ height.toNat * width.toNat := Nat.mul_le_mul_right _ (by omega)
      _ = width.toNat * height.toNat := Nat.mul_comm ..
  unfold Pixmap.pixel
  rw [ew, eh, if_pos ⟨hx, hy⟩]
  simp only [Pixmap.white, UInt32.ofNat_toNat]
  rw [List.getElem?_replicate, if_pos hindex]
  rfl

/-- A list that is rasterized was accepted, and all of it was executed. -/
theorem execute_of_rasterize {draws : List Draw} (h : (rasterize .saturating fonts dl width height).run = .ok draws) :
    ((1 ≤ width ∧ width ≤ 16384) ∧ 1 ≤ height ∧ height ≤ 16384) ∧ validate dl (canvasBounds width height) = .ok () ∧
      ∃ s, (execute .saturating fonts (canvasBounds width height) (start (canvasBounds width height)) dl.items).run = .ok s ∧
        s.draws = draws := by
  unfold rasterize at h
  by_cases hsize : width = 0 ∨ height = 0 ∨ maxDimension < width ∨ maxDimension < height
  · rw [if_pos hsize] at h
    cases h
  rw [if_neg hsize] at h
  unfold maxDimension at hsize
  refine ⟨by omega, ?_⟩
  cases hvalid : validate dl (canvasBounds width height) with
  | error e =>
    rw [hvalid] at h
    cases h
  | ok u =>
    simp only [hvalid, Id.run_bind] at h
    refine ⟨rfl, ?_⟩
    cases hs : (execute .saturating fonts (canvasBounds width height) (start (canvasBounds width height)) dl.items).run with
    | error e =>
      rw [hs] at h
      cases h
    | ok s =>
      rw [hs] at h
      exact ⟨s, rfl, Except.ok.inj h⟩

/-- What the calls for a list leave on the canvas. -/
theorem shaded_of_rasterize (hΓ : Γ.FillsWith brush) {width height : UInt32} {draws : List Draw}
    (h : (rasterize .saturating fonts dl width.toNat height.toNat).run = .ok draws) :
    Shaded width.toNat height.toNat (draws.foldl (Draw.exec Γ) (.white width.toNat height.toNat)) fun x y =>
      Shading.items Γ brush width height x y (canvasBounds width.toNat height.toNat).region [] Shading.white dl.items := by
  obtain ⟨⟨hw, hh⟩, hvalid, s, hs, rfl⟩ := execute_of_rasterize h
  have hwhite : (Pixmap.white width.toNat height.toNat).width = width ∧ (Pixmap.white width.toNat height.toNat).height = height :=
    ⟨UInt32.ofNat_toNat, UInt32.ofNat_toNat⟩
  have hshades : ∀ x y, Shades Γ width height x y s.draws fun c => Shading.items Γ brush width height x y
      (canvasBounds width.toNat height.toNat).region [] c dl.items := by
    intro x y
    obtain ⟨draws, hdraws, hshades⟩ := execute_shades hΓ (isCanvas hw hh) (Clips.start _) (itemsFit_of_validate hvalid) hs
    rw [hdraws]
    exact hshades
  obtain ⟨hwidth, hheight⟩ := (hshades 0 0 _ hwhite).1
  refine ⟨⟨congrArg UInt32.toNat hwidth, congrArg UInt32.toNat hheight⟩, ?_⟩
  intro x y hx hy
  rw [(hshades x y _ hwhite).2, pixel_white hx hy]
  rfl

/-- A list that the validator accepts, and whose texts are in faces that parse, is rasterized: every pixel has the color that its items
leave there. -/
theorem rasterize_shades (hΓ : Γ.FillsWith brush) {width height : UInt32} (hw : 1 ≤ width.toNat ∧ width.toNat ≤ maxDimension)
    (hh : 1 ≤ height.toNat ∧ height.toNat ≤ maxDimension) (hvalid : validate dl (canvasBounds width.toNat height.toNat) = .ok ())
    (hfonts : Resolves fonts dl.items) : ∃ p stats, rasterizeWithStats Γ fonts dl width.toNat height.toNat = .ok (p, stats) ∧
      Shaded width.toNat height.toNat p fun x y =>
        Shading.items Γ brush width height x y (canvasBounds width.toNat height.toNat).region [] Shading.white dl.items := by
  rcases rasterizeWithStats_cases hfonts Γ width.toNat height.toNat with
    ⟨hsize, -⟩ | ⟨-, ⟨e, hinvalid, -⟩ | ⟨-, draws, stats, hdraws, hraster⟩⟩
  · omega
  · rw [hvalid] at hinvalid
    cases hinvalid
  · exact ⟨_, stats, hraster, shaded_of_rasterize hΓ hdraws⟩

/-- A translucent red rect and a letter, of which a clip leaves the left half. -/
def halfShown : DisplayList where
  items := [.pushClip ⟨.zero, ⟨.fromPx 1, .fromPx 2⟩⟩, .rect ⟨.zero, ⟨.fromPx 2, .fromPx 2⟩⟩ ⟨255, 0, 0, 128⟩,
    .text ⟨⟨0⟩, .fromPx 16, ⟨.zero, .fromPx 1⟩, [⟨7, .zero, .zero, .zero⟩, ⟨7, .fromPx 1, .zero, .zero⟩], .black⟩, .popClip]
  bounds := ⟨.zero, ⟨.fromPx 2, .fromPx 2⟩⟩

/-- That list is rasterized as its items say. -/
theorem rasterize_shades_halfShown :
    ∃ p stats, rasterizeWithStats .brushed (fun _ => some ⟨"Ahem", 0, true⟩) halfShown (2 : UInt32).toNat (2 : UInt32).toNat =
        .ok (p, stats) ∧
      Shaded (2 : UInt32).toNat (2 : UInt32).toNat p fun x y => Shading.items .brushed .sample 2 2 x y
        (canvasBounds (2 : UInt32).toNat (2 : UInt32).toNat).region [] Shading.white halfShown.items :=
  rasterize_shades (Backend.fillsWith_of_fillRect rfl) (by decide) (by decide) (by decide +kernel) fun _ _ => ⟨_, rfl, rfl⟩

/-! ## Fragments -/

namespace Shading

open Paint (ownItems backgroundItems borderItems solidBorderWidths resolveStyle paintForest viewportBounds clipBracket clipBracket_ownItems
  canvasItems)

variable {width height : UInt32} {x y : Int} {bounds : Rect} {canvas clip clip' : Box Int} {c : PremultipliedColorU8}

/-- Items that open and close no clips are all inside the same ones. -/
theorem items_plain {plain : List DisplayItem} (h : ∀ item ∈ plain, clipBracket item = none) (opens : List (Box Int))
    (rest : List DisplayItem) (c : PremultipliedColorU8) : items Γ brush width height x y canvas opens c (plain ++ rest) =
      items Γ brush width height x y canvas opens (plain.foldl (item Γ brush width height x y (canvas.interAll opens)) c) rest := by
  induction plain generalizing c with
  | nil => rfl
  | cons i plain ih =>
    have hopened : opened opens i = opens := by
      have hi := h i List.mem_cons_self
      cases i with
      | pushClip rect => cases hi
      | popClip => cases hi
      | _ => rfl
    rw [List.cons_append, items, hopened, List.foldl_cons]
    exact ih (fun item hitem => h item (List.mem_cons_of_mem _ hitem)) _

/-- One axis of a rect that is clamped to a region around the canvas: inside the canvas nothing changes. -/
theorem part_axis {extent : Int} (hextent : 0 < extent) (min max : Au) (hmin : min.units ≤ 0) (hmax : extent ≤ max.units)
    (hspan : max.units - min.units ≤ 2147483647) (lo size : Au)
    (hne : Max.max 0 (lo.within min max).units < Min.min extent ((lo.within min max).units +
        ((Max.max ((lo.saturatingAdd size).within min max) (lo.within min max)).saturatingSub (lo.within min max)).units) ∨
      Max.max 0 lo.units < Min.min extent (lo.units + size.units)) :
    Max.max 0 (lo.within min max).units = Max.max 0 lo.units ∧
      Min.min extent ((lo.within min max).units +
        ((Max.max ((lo.saturatingAdd size).within min max) (lo.within min max)).saturatingSub (lo.within min max)).units) =
      Min.min extent (lo.units + size.units) := by
  have hright := Au.units_saturatingAdd lo size
  rw [Au.units_saturatingSub, Au.units_max, Au.units_within, Au.units_within] at hne ⊢
  omega

/-- Clamping a clip to the widened viewport changes nothing inside the viewport. -/
theorem part_agrees (hb : IsCanvas bounds) (rect : Rect) :
    (bounds.region.inter ((InflatedViewport.new bounds).part rect).region).Agrees (bounds.region.inter rect.region) := by
  obtain ⟨hw0, hw⟩ := hb.width
  obtain ⟨hh0, hh⟩ := hb.height
  have hx : bounds.origin.x.units = 0 := by rw [hb.origin]; rfl
  have hy : bounds.origin.y.units = 0 := by rw [hb.origin]; rfl
  have margin : (Au.fromPx offscreenMarginPx).units = 245760 := by decide
  have hminx : (InflatedViewport.new bounds).min.x.units = -245760 := by
    simp only [InflatedViewport.new, Au.units_saturatingSub, margin, hx]
    omega
  have hminy : (InflatedViewport.new bounds).min.y.units = -245760 := by
    simp only [InflatedViewport.new, Au.units_saturatingSub, margin, hy]
    omega
  have hmaxx : (InflatedViewport.new bounds).max.x.units = bounds.size.w.units + 245760 := by
    simp only [InflatedViewport.new, Rect.right, Au.units_saturatingAdd, margin, hx]
    omega
  have hmaxy : (InflatedViewport.new bounds).max.y.units = bounds.size.h.units + 245760 := by
    simp only [InflatedViewport.new, Rect.bottom, Au.units_saturatingAdd, margin, hy]
    omega
  have haxisx := part_axis hw0 (InflatedViewport.new bounds).min.x (InflatedViewport.new bounds).max.x (by omega) (by omega)
    (by omega) rect.origin.x rect.size.w
  have haxisy := part_axis hh0 (InflatedViewport.new bounds).min.y (InflatedViewport.new bounds).max.y (by omega) (by omega)
    (by omega) rect.origin.y rect.size.h
  intro hne
  simp only [Box.Nonempty, Box.inter, Rect.region, InflatedViewport.part, hx, hy, Int.zero_add] at hne
  obtain ⟨hleft, hright⟩ := haxisx (hne.imp And.left And.left)
  obtain ⟨htop, hbottom⟩ := haxisy (hne.imp And.right And.right)
  refine Box.ext ?_ ?_ ?_ ?_
  · simpa only [Box.inter, Rect.region, InflatedViewport.part, hx] using hleft
  · simpa only [Box.inter, Rect.region, InflatedViewport.part, hy] using htop
  · simpa only [Box.inter, Rect.region, InflatedViewport.part, Rect.right, hx, Int.zero_add] using hright
  · simpa only [Box.inter, Rect.region, InflatedViewport.part, Rect.bottom, hy, Int.zero_add] using hbottom

/-- A rect that is culled shows nowhere inside the canvas. -/
theorem not_nonempty_of_culled {tree : FragmentTree} {r : Rect}
    (h : InflatedViewport.intersectsRect (.new (viewportBounds tree)) r = false) (hclip : clip.Within (viewportBounds tree).region) :
    ¬(r.region.inter clip).Nonempty := by
  intro hne
  obtain ⟨hx, hy⟩ : (r.region.inter (viewportBounds tree).region).Nonempty := by
    rw [← hclip.inter_eq, Box.inter_comm clip, ← Box.inter_assoc] at hne
    exact hne.of_inter
  simp only [Box.inter, Rect.region, viewportBounds, Point.zero, Au.units_zero, Int.zero_add] at hx hy
  exact Paint.not_hasAreaInside h ⟨max r.origin.x.units 0, max r.origin.y.units 0, by omega, by omega, by omega, by omega⟩

theorem own_congr (hclip : clip.Agrees clip') (viewport : InflatedViewport) (fragment : Fragment) (style : LayoutStyle)
    (suppressBackground : Bool) (c : PremultipliedColorU8) :
    own Γ brush width height x y viewport fragment style suppressBackground clip c =
      own Γ brush width height x y viewport fragment style suppressBackground clip' c := by
  unfold own
  cases fragment.kind with
  | block => simp only [fill_congr hclip (.refl fragment.borderBox.region), border_congr hclip]
  | anonymousBlock => rfl
  | line => rfl
  | text runs => simp only [text_congr hclip]

theorem forest_congr (hclip : clip.Agrees clip') (Φ : FloatOps) (tree : FragmentTree) (suppressed : Option FragmentId)
    (viewport : InflatedViewport) (F : Forest FragmentId) (c : PremultipliedColorU8) :
    forest Γ brush width height x y Φ tree suppressed viewport clip F c =
      forest Γ brush width height x y Φ tree suppressed viewport clip' F c := by
  induction F generalizing clip clip' c with
  | nil => rfl
  | cons id kids rest ihKids ihRest =>
    unfold forest
    rw [ihRest hclip]
    cases tree.get id with
    | none => rfl
    | some fragment =>
      dsimp only
      rw [own_congr hclip]
      split
      · rw [ihKids (hclip.inter_left _)]
      · rw [ihKids hclip]

variable {tree : FragmentTree}

theorem foldl_backgroundItems (fragment : Fragment) (style : LayoutStyle) (suppressBackground : Bool) (clip : Box Int)
    (c : PremultipliedColorU8) :
    (backgroundItems fragment style suppressBackground).foldl (item Γ brush width height x y clip) c =
      if suppressBackground then c else fill brush width height x y clip style.background fragment.borderBox.region c := by
  unfold backgroundItems
  cases suppressBackground with
  | true => simp only [Bool.not_true, Bool.false_eq_true, false_and, if_false, if_true, List.foldl_nil]
  | false =>
    split
    · rfl
    · rename_i hskip
      refine (if_neg fun h => hskip ⟨rfl, ?_, ?_⟩).symm
      · exact UInt8.pos_iff_ne_zero.2 h.1
      · simpa using region_nonempty.1 h.2.1.of_inter

/-- The background and the border of a block, culled or not. -/
theorem own_block {fragment : Fragment} (hkind : fragment.kind = .block) (viewport : InflatedViewport) (style : LayoutStyle)
    (suppressBackground : Bool) (clip : Box Int) (c : PremultipliedColorU8) :
    own Γ brush width height x y viewport fragment style suppressBackground clip c =
      (backgroundItems fragment style suppressBackground ++ borderItems fragment style).foldl
        (item Γ brush width height x y clip) c := by
  rw [List.foldl_append, foldl_backgroundItems]
  unfold own borderItems
  rw [hkind]
  dsimp only
  cases solidBorderWidths style <;> rfl

/-- A block shows nothing where its box does not. -/
theorem own_of_empty {fragment : Fragment} (hkind : fragment.kind = .block)
    (hempty : ¬(fragment.borderBox.region.inter clip).Nonempty) (viewport : InflatedViewport) (style : LayoutStyle)
    (suppressBackground : Bool) (c : PremultipliedColorU8) :
    own Γ brush width height x y viewport fragment style suppressBackground clip c = c := by
  have hside : ∀ side : Box Int, ¬((fragment.borderBox.region.inter side).inter clip).Nonempty := by
    intro side hne
    rw [Box.inter_comm _ side, Box.inter_assoc, Box.inter_comm side] at hne
    exact hempty hne.of_inter
  unfold own
  rw [hkind]
  simp only [fill_of_empty hempty, ite_self]
  cases solidBorderWidths style with
  | none => rfl
  | some widths => simp only [border, borderSides, List.foldl_cons, List.foldl_nil, fill_of_empty (hside _)]

/-- What a fragment's items do is what the fragment means. -/
theorem foldl_ownItems (hclip : clip.Within (viewportBounds tree).region) (fragment : Fragment) (style : LayoutStyle)
    (suppressBackground : Bool) (c : PremultipliedColorU8) :
    (ownItems fragment style suppressBackground (.new (viewportBounds tree))).foldl (item Γ brush width height x y clip) c =
      own Γ brush width height x y (.new (viewportBounds tree)) fragment style suppressBackground clip c := by
  cases hkind : fragment.kind with
  | block =>
    cases hcull : InflatedViewport.intersectsRect (.new (viewportBounds tree)) fragment.borderBox with
    | true =>
      rw [own_block hkind]
      simp only [ownItems, hkind, hcull, if_true]
    | false =>
      rw [own_of_empty hkind (not_nonempty_of_culled hcull hclip)]
      simp only [ownItems, hkind, hcull, Bool.false_eq_true, if_false, List.foldl_nil]
  | anonymousBlock => simp only [ownItems, own, hkind, List.foldl_nil]
  | line => simp only [ownItems, own, hkind, List.foldl_nil]
  | text runs =>
    simp only [ownItems, own, hkind, List.foldl_map, List.foldl_filter]
    refine List.foldl_ext _ _ c fun c run _ => ?_
    cases hglyphs : run.glyphs with
    | nil =>
      have hblank : text Γ x y clip run c = c := by
        unfold text
        rw [hglyphs, List.foldl_nil, ite_self]
      simp [hblank]
    | cons g glyphs => simp [item]

/-- What the painter's items do is what the fragments mean. -/
theorem items_paintForest (hb : IsCanvas (viewportBounds tree)) (Φ : FloatOps) (suppressed : Option FragmentId)
    (F : Forest FragmentId) (opens : List (Box Int)) (rest : List DisplayItem) (c : PremultipliedColorU8) :
    items Γ brush width height x y (viewportBounds tree).region opens c
        (paintForest Φ tree suppressed (.new (viewportBounds tree)) F ++ rest) =
      items Γ brush width height x y (viewportBounds tree).region opens
        (forest Γ brush width height x y Φ tree suppressed (.new (viewportBounds tree))
          ((viewportBounds tree).region.interAll opens) F c) rest := by
  induction F generalizing opens rest c with
  | nil => rfl
  | cons id kids others ihKids ihOthers =>
    unfold paintForest forest
    rw [List.append_assoc]
    cases tree.get id with
    | none => exact ihOthers opens rest c
    | some fragment =>
      dsimp only
      have hclip := Box.interAll_within (viewportBounds tree).region opens
      rw [List.append_assoc, items_plain (clipBracket_ownItems _ _ _ _), foldl_ownItems hclip]
      split
      · have hinside := (part_agrees hb fragment.paddingBox).inter_within hclip
        rw [← Box.interAll_concat] at hinside
        rw [List.cons_append, items, List.append_assoc, ihKids, List.singleton_append, items]
        simp only [opened, item, List.dropLast_concat]
        rw [ihOthers, forest_congr hinside]
      · rw [ihKids, ihOthers]

/-- What the painter's list does is what the page means. -/
theorem items_paintTree (hb : IsCanvas (viewportBounds tree)) (Φ : FloatOps) (document : Document) (F : Forest FragmentId)
    (c : PremultipliedColorU8) :
    items Γ brush width height x y (viewportBounds tree).region [] c (Paint.paintTree Φ tree document F).items =
      page Γ brush width height x y Φ tree (Paint.canvasOf Φ tree document F) F c := by
  generalize hcanvas : Paint.canvasOf Φ tree document F = canvas
  have hitems : (Paint.paintTree Φ tree document F).items = canvasItems tree canvas ++
      (paintForest Φ tree canvas.suppressedFragment (.new (viewportBounds tree)) F ++ []) := by
    rw [← hcanvas, List.append_nil]
    rfl
  rw [hitems, items_plain (Paint.clipBracket_canvasItems _ _), items_paintForest hb]
  unfold canvasItems page
  simp only [Box.interAll, List.foldl_nil]
  cases canvas.color with
  | none => rfl
  | some color =>
    have hnonempty : (viewportBounds tree).region.Nonempty :=
      ⟨Int.lt_add_of_pos_right _ hb.width.1, Int.lt_add_of_pos_right _ hb.height.1⟩
    dsimp only
    rw [if_neg (region_nonempty.1 hnonempty)]
    rfl

end Shading

end Gfx

/-! ## Documents -/

namespace Engines

variable {υ ρ ε δ : Type} [DecidableEq δ] {E : Engines υ ρ ε δ} {bytes : Bytes} {base : υ} {width height : UInt32}
  {db : Fonts.FontDb δ} {brush : Gfx.Brush} {output output' : RenderOutput}

/-- The fragments of a layout, as the painter goes through them. -/
theorem exists_page {styled : StyledDocument} {fragments : FragmentTree}
    (h : Block.layout E.floats (Fonts.textShaper E.textFloats db E.parley) styled (viewportOf width height) = .some (.ok fragments)) :
    fragments.viewport = viewportOf width height ∧ ∃ F : Forest FragmentId, (F.roots = [fragments.root] ∧ F.Follows fragments.kids) ∧
      Paint.canvasBackground E.floats fragments styled.document = .some (Paint.canvasOf E.floats fragments styled.document F) ∧
      Paint.build E.floats fragments styled.document = .some (Paint.paintTree E.floats fragments styled.document F) := by
  rcases Block.layout_cases E.floats (Fonts.textShaper E.textFloats db E.parley) styled (viewportOf width height) with
    ⟨e, herror, -⟩ | ⟨fragments', F, hok, hviewport, ho, -⟩
  · have := Part.some_injective (h.symm.trans herror)
    cases this
  · obtain rfl := Except.ok.inj (Part.some_injective (h.symm.trans hok))
    have hr : ∀ id ∈ (Postorder.ids FragmentId.mk 0 F).preorder, ∃ f, fragments.get id = some f :=
      fun id hid => ho.mem_ids_iff.1 hid
    have hsize : (Postorder.ids FragmentId.mk 0 F).size ≤ fragments.len := by rw [Postorder.size_ids, ho.len]
    exact ⟨hviewport, _, ⟨ho.root.symm, ho.follows⟩, Paint.canvasBackground_eq ho.root.symm ho.follows hr hsize,
      Paint.build_eq_of_forest _ ho.root.symm ho.follows hr hsize (Or.inl (hviewport ▸ widenable_viewportOf width height))⟩

variable [DecidableEq ε]

/-- The picture of a document: styled and laid out, every pixel has the color that its fragments leave there. -/
structure Pictures (E : Engines υ ρ ε δ) (brush : Gfx.Brush) (db : Fonts.FontDb δ) (bytes : Bytes) (base : υ)
    (width height : UInt32) (output : RenderOutput) (styled : StyledDocument) (fragments : FragmentTree) (F : Forest FragmentId) :
    Prop where
  styles : E.Styles bytes base width height styled output.warnings
  lays : Block.layout E.floats (Fonts.textShaper E.textFloats db E.parley) styled (viewportOf width height) = .some (.ok fragments)
  /-- The fragments in document order. -/
  forest : F.roots = [fragments.root] ∧ F.Follows fragments.kids
  size : width.toNat ≤ Gfx.maxDimension ∧ height.toNat ≤ Gfx.maxDimension
  limits : Paint.WithinLimits E.floats fragments (Paint.canvasOf E.floats fragments styled.document F)
  pixels : Gfx.Shaded width.toNat height.toNat output.pixmap fun x y =>
    Gfx.Shading.page E.raster brush width height x y E.floats fragments (Paint.canvasOf E.floats fragments styled.document F) F
      Gfx.Shading.white

/-- What is rendered is a picture of the document. -/
theorem Renders.pictures (hΓ : E.raster.FillsWith brush) (h : Renders E db bytes base width height (.ok output)) :
    ∃ styled fragments F, Pictures E brush db bytes base width height output styled fragments F := by
  cases h with
  | @painted styled warnings fragments canvas displayList draws pixmap hstyled hlayout hcanvas hlimits hpaint hdraws hpixmap hdrawn =>
    obtain ⟨hviewport, F, hF, hcanvas', hpaint'⟩ := exists_page hlayout
    obtain rfl := Part.some_injective (hcanvas.symm.trans hcanvas')
    obtain rfl := Part.some_injective (hpaint.symm.trans hpaint')
    obtain ⟨⟨hw, hh⟩, -⟩ := Gfx.execute_of_rasterize hdraws
    have hbounds : Paint.viewportBounds fragments = Gfx.canvasBounds width.toNat height.toNat := by
      rw [Paint.viewportBounds, hviewport, viewportOf_eq hw.2 hh.2]
    have hshaded := Gfx.shaded_of_rasterize hΓ hdraws
    have hb : Gfx.IsCanvas (Paint.viewportBounds fragments) := hbounds ▸ Gfx.isCanvas hw hh
    simp only [← hbounds, Gfx.Shading.items_paintTree hb] at hshaded
    exact ⟨styled, fragments, F, hstyled, hlayout, hF, ⟨hw.2, hh.2⟩, hlimits, hpixmap ▸ hshaded⟩

/-- A document has one picture. -/
theorem Pictures.unique {styled styled' : StyledDocument} {fragments fragments' : FragmentTree} {F F' : Forest FragmentId}
    (h : Pictures E brush db bytes base width height output styled fragments F)
    (h' : Pictures E brush db bytes base width height output' styled' fragments' F') : output = output' := by
  obtain ⟨rfl, hwarnings⟩ := h.styles.unique h'.styles
  obtain rfl := Except.ok.inj (Part.some_injective (h.lays.symm.trans h'.lays))
  obtain rfl := h.forest.2.unique h'.forest.2 (h.forest.1.trans h'.forest.1.symm)
  have hpixmap := h.pixels.unique h'.pixels
  cases output
  cases output'
  simp only at hwarnings hpixmap
  subst hwarnings hpixmap
  rfl

/-- Rendering gives an image exactly if it is the picture of the document. -/
theorem renderBytes_pictures (hE : E.Lawful) (hΓ : E.raster.FillsWith brush) (bytes : Bytes) (base : υ) (width height : UInt32) :
    ∃ db, Fonts.FontDb.bundled E.register E.ahem E.notoSans = .ok db ∧ ∀ output,
      E.renderBytes bytes base width height = .some (.ok output) ↔
        ∃ styled fragments F, Pictures E brush db bytes base width height output styled fragments F := by
  obtain ⟨db, hdb, -⟩ := hE.fonts
  obtain ⟨r, hr, hrenders⟩ := exists_renders hE hdb bytes base width height
  refine ⟨db, hdb, fun output => ⟨?_, ?_⟩⟩
  · intro h
    obtain rfl := Part.some_injective (hr.symm.trans h)
    exact hrenders.pictures hΓ
  · rintro ⟨styled, fragments, F, hpictures⟩
    obtain ⟨-, F', hF', hcanvas', -⟩ := exists_page hpictures.lays
    obtain rfl := hpictures.forest.2.unique hF'.2 (hpictures.forest.1.trans hF'.1.symm)
    suffices hok : ∃ output', r = .ok output' by
      obtain ⟨output', rfl⟩ := hok
      obtain ⟨styled', fragments', F', hpictures'⟩ := hrenders.pictures hΓ
      rw [hpictures.unique hpictures']
      exact hr
    -- none of the errors is possible: the document is styled and laid out, and its sizes are within the limits
    cases hrenders with
    | noDevice h => exact absurd h (hpictures.styles.viewport hE)
    | unbundledFont hstyled hlayout hrun hfont =>
      obtain ⟨rfl, -⟩ := hpictures.styles.unique hstyled
      have := Part.some_injective (hpictures.lays.symm.trans hlayout)
      cases this
    | tooLarge hstyled hlayout h =>
      have := hpictures.size
      omega
    | invalid hstyled hlayout hsize hcanvas hlimits hpaint hvalid =>
      obtain ⟨rfl, -⟩ := hpictures.styles.unique hstyled
      obtain rfl := Except.ok.inj (Part.some_injective (hpictures.lays.symm.trans hlayout))
      obtain rfl := Part.some_injective (hcanvas.symm.trans hcanvas')
      exact absurd hpictures.limits hlimits
    | painted => exact ⟨_, rfl⟩

/-- The picture of the page with one letter is the one of its document. -/
theorem renderBytes_pictures_letterPage : ∃ db output, Fonts.FontDb.bundled sample.register sample.ahem sample.notoSans = .ok db ∧
    (∃ styled fragments F, Pictures sample .sample db letterPage "file:///letter.html" 8 8 output styled fragments F) ∧
    output.pixmap = letterPicture := by
  obtain ⟨warnings, hrender⟩ := renderBytes_letterPage
  obtain ⟨db, hdb, hiff⟩ := renderBytes_pictures lawful_sample (Gfx.Backend.fillsWith_of_fillRect rfl) letterPage "file:///letter.html" 8 8
  exact ⟨db, _, hdb, (hiff _).1 hrender, rfl⟩

end Engines

end ChromeLight
