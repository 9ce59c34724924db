import ChromeLight.Theorems.Culling
import ChromeLight.Theorems.Clip

/-!
# What the painter makes, the validator accepts

The painter's culling is the validator's bounds check, its clamped clips always fit, and its clips are balanced. What is left
of the validator's limits are sizes that layout does not bound: the number of items, the depth of nested clips, the rects and
border widths of painted blocks, and the glyphs of painted runs. The painter's list is accepted exactly if they are kept
(`accepted_iff`).
-/

namespace ChromeLight

open Forest (Ancestors)

namespace Paint

variable {Γ : FloatOps} {shape : Shaper} {doc : StyledDocument} {tree : FragmentTree} {viewport : Size}

/-! ## Clamped clips and the canvas -/

/-- A viewport of positive size and at most 16384 pixels in both directions. -/
def Displayable (viewport : Size) : Prop :=
  (0 < viewport.w.units ∧ viewport.w.units ≤ 983040) ∧ 0 < viewport.h.units ∧ viewport.h.units ≤ 983040

section

variable (hv : Displayable tree.viewport)
include hv

/-- The widened viewport, in units. -/
theorem inflated_units :
    ((InflatedViewport.new (viewportBounds tree)).min.x.units = -245760 ∧
      (InflatedViewport.new (viewportBounds tree)).max.x.units = tree.viewport.w.units + 245760) ∧
    (InflatedViewport.new (viewportBounds tree)).min.y.units = -245760 ∧
      (InflatedViewport.new (viewportBounds tree)).max.y.units = tree.viewport.h.units + 245760 := by
  obtain ⟨⟨hw, hw'⟩, hh, hh'⟩ := hv
  have margin : (Au.fromPx offscreenMarginPx).units = 245760 := by decide
  simp only [InflatedViewport.new, viewportBounds, Rect.right, Rect.bottom, Point.zero, Au.units_saturatingAdd,
    Au.units_saturatingSub, Au.units_zero, margin]
  omega

/-- A clamped clip passes the validator's check. -/
theorem part_fits (rect : Rect) :
    rectIsValid ((InflatedViewport.new (viewportBounds tree)).part rect) = true ∧
      (inflate (viewportBounds tree)).intersectsRect ((InflatedViewport.new (viewportBounds tree)).part rect) = true := by
  exact part_accepted (by obtain ⟨⟨hw, -⟩, -⟩ := hv; exact hw) (by obtain ⟨-, hh, -⟩ := hv; exact hh) rect

theorem Displayable.widenable : Widenable tree.viewport := by
  obtain ⟨⟨hw, -⟩, hh, -⟩ := hv
  unfold Widenable
  omega

/-- The canvas passes the validator's check. -/
theorem canvasItems_fit (canvas : CanvasBackground) :
    ∀ item ∈ canvasItems tree canvas, item.Fits (inflate (viewportBounds tree)) 0 := by
  intro item hi
  obtain ⟨⟨hminx, hmaxx⟩, hminy, hmaxy⟩ := inflated_units hv
  obtain ⟨⟨hw, hw'⟩, hh, hh'⟩ := hv
  have hwfits : Au.zero.AddFits tree.viewport.w := by
    unfold Au.AddFits
    rw [Au.units_zero]
    omega
  have hhfits : Au.zero.AddFits tree.viewport.h := by
    unfold Au.AddFits
    rw [Au.units_zero]
    omega
  have overlaps : ∀ {size min max : Au}, 0 < size.units → Au.zero.AddFits size → min.units = -245760 →
      max.units = size.units + 245760 → axisOverlaps .zero (Au.zero.saturatingAdd size) min max = true := by
    intro size min max hpos hfits hmin hmax
    have hright := hfits.units_saturatingAdd
    have hne : Au.zero ≠ Au.zero.saturatingAdd size := by
      intro h
      rw [Au.ext_iff_units, hright, Au.units_zero] at h
      omega
    rw [axisOverlaps, if_neg hne]
    simp only [gt_iff_lt, Au.lt_iff, hright, Au.units_zero, decide_eq_true_eq]
    omega
  unfold canvasItems at hi
  cases hc : canvas.color with
  | none => simp [hc] at hi
  | some color =>
    simp only [hc] at hi
    split at hi
    · cases hi
    · obtain rfl := List.mem_singleton.1 hi
      refine ⟨rectIsValid_iff.2 ⟨by simp only [viewportBounds]; omega, by simp only [viewportBounds]; omega, hwfits, hhfits⟩, ?_⟩
      exact Bool.and_eq_true_iff.2 ⟨overlaps hw hwfits hminx hmaxx, overlaps hh hhfits hminy hmaxy⟩

theorem boundsIsValid_viewport : boundsIsValid (viewportBounds tree) = true := by
  obtain ⟨⟨hw, hw'⟩, hh, hh'⟩ := hv
  simp only [boundsIsValid, viewportBounds, Point.zero, decide_eq_true_eq, gt_iff_lt, Au.lt_iff, Au.units_zero,
    Au.isSome_checkedAdd, Au.AddFits]
  omega

end

/-! ## Plain items -/

/-- Items that are no clips leave the clips alone, and fit at any number of them. -/
theorem itemsFit_plain (inflated : InflatedBounds) {items : List DisplayItem} (h : ∀ item ∈ items, clipBracket item = none)
    (depth : Nat) :
    items.foldl depthAfter depth = depth ∧ (ItemsFit inflated depth items ↔ ∀ item ∈ items, item.Fits inflated 0) := by
  induction items with
  | nil => exact ⟨rfl, by simp [ItemsFit]⟩
  | cons item items ih =>
    obtain ⟨hdepth, hfit⟩ := ih fun x hx => h x (List.mem_cons_of_mem _ hx)
    have hitem : depthAfter depth item = depth ∧ (item.Fits inflated depth ↔ item.Fits inflated 0) := by
      have hb := h item List.mem_cons_self
      cases item with
      | pushClip => cases hb
      | popClip => cases hb
      | _ => exact ⟨rfl, Iff.rfl⟩
    simp only [List.foldl_cons, ItemsFit, hitem.1, hitem.2, hdepth, hfit, List.forall_mem_cons, and_self]

/-! ## The limits -/

/-- The number of items a fragment brings: its own, and the two ends of its clip. -/
def itemCount (Γ : FloatOps) (tree : FragmentTree) (canvas : CanvasBackground) (id : FragmentId) : Nat :=
  match tree.get id with
  | some f =>
    let style := resolveStyle Γ tree f.style
    (ownItems f style (canvas.suppressedFragment = some id) (.new (viewportBounds tree))).length +
      if style.overflow = .hidden then 2 else 0
  | none => 0

/-- The sizes in a fragment tree that layout does not bound, within the validator's limits. -/
structure WithinLimits (Γ : FloatOps) (tree : FragmentTree) (canvas : CanvasBackground) : Prop where
  count : (canvasItems tree canvas).length + ((List.range tree.len).map fun i => itemCount Γ tree canvas ⟨i⟩).sum ≤ maxItems
  depth : ∀ id path, Ancestors tree.kids tree.root id path → (styleClip Γ tree id).isSome →
    (path.filterMap (styleClip Γ tree)).length < maxClipDepth
  background : ∀ id f, tree.get id = some f → f.kind = .block →
    InflatedViewport.intersectsRect (.new (viewportBounds tree)) f.borderBox = true →
    backgroundItems f (resolveStyle Γ tree f.style) (canvas.suppressedFragment = some id) ≠ [] → RectFits f.borderBox
  border : ∀ id f, tree.get id = some f → f.kind = .block →
    InflatedViewport.intersectsRect (.new (viewportBounds tree)) f.borderBox = true →
    ∀ widths, solidBorderWidths (resolveStyle Γ tree f.style) = some widths →
      RectFits f.borderBox ∧ borderWidthsValid f.borderBox widths = true
  text : ∀ id f runs, tree.get id = some f → f.kind = .text runs → ∀ run ∈ runs, emitsRun tree run = true →
    run.glyphs.length ≤ maxGlyphsPerRun ∧ ∀ glyph ∈ run.glyphs, run.origin.x.AddFits glyph.x ∧ run.origin.y.AddFits glyph.y

theorem backgroundItems_fit {f : Fragment} {style : LayoutStyle} {suppress : Bool}
    (hin : InflatedViewport.intersectsRect (.new (viewportBounds tree)) f.borderBox = true) :
    (∀ item ∈ backgroundItems f style suppress, item.Fits (inflate (viewportBounds tree)) 0) ↔
      (backgroundItems f style suppress ≠ [] → RectFits f.borderBox) := by
  unfold backgroundItems
  split
  · simp only [List.mem_singleton, forall_eq, DisplayItem.Fits, rectIsValid_iff, ne_eq, List.cons_ne_nil,
      not_false_eq_true, forall_const]
    exact ⟨fun h => h.1, fun h => ⟨h, hin⟩⟩
  · simp

theorem borderItems_fit {f : Fragment} {style : LayoutStyle}
    (hin : InflatedViewport.intersectsRect (.new (viewportBounds tree)) f.borderBox = true) :
    (∀ item ∈ borderItems f style, item.Fits (inflate (viewportBounds tree)) 0) ↔
      ∀ widths, solidBorderWidths style = some widths → RectFits f.borderBox ∧ borderWidthsValid f.borderBox widths = true := by
  unfold borderItems
  cases solidBorderWidths style with
  | none => simp
  | some widths =>
    simp only [List.mem_singleton, forall_eq, DisplayItem.Fits, rectIsValid_iff, Option.some.injEq, forall_eq']
    exact ⟨fun h => ⟨h.1.1, h.2⟩, fun h => ⟨⟨h.1, hin⟩, h.2⟩⟩

theorem glyphsFit_iff {run : GlyphRun} : glyphsFit run = true ↔
    ∀ glyph ∈ run.glyphs, run.origin.x.AddFits glyph.x ∧ run.origin.y.AddFits glyph.y := by
  simp only [glyphsFit, List.all_eq_true, Bool.and_eq_true, Au.isSome_checkedAdd]

theorem runs_fit {runs : List GlyphRun} :
    (∀ item ∈ (runs.filter (emitsRun tree)).map DisplayItem.text, item.Fits (inflate (viewportBounds tree)) 0) ↔
      ∀ run ∈ runs, emitsRun tree run = true → run.glyphs.length ≤ maxGlyphsPerRun ∧
        ∀ glyph ∈ run.glyphs, run.origin.x.AddFits glyph.x ∧ run.origin.y.AddFits glyph.y := by
  simp only [List.forall_mem_map, List.mem_filter, and_imp, DisplayItem.Fits, glyphsFit_iff]
  refine forall₃_congr fun run _ hemit => ⟨fun h => ⟨h.1, h.2.2⟩, fun h => ⟨h.1, ?_, h.2⟩⟩
  exact (Bool.and_eq_true_iff.1 hemit).2

/-- When a fragment's own items fit. -/
theorem ownItems_fit {f : Fragment} {style : LayoutStyle} {suppress : Bool} :
    (∀ item ∈ ownItems f style suppress (.new (viewportBounds tree)), item.Fits (inflate (viewportBounds tree)) 0) ↔
      (f.kind = .block → InflatedViewport.intersectsRect (.new (viewportBounds tree)) f.borderBox = true →
        (backgroundItems f style suppress ≠ [] → RectFits f.borderBox) ∧
        ∀ widths, solidBorderWidths style = some widths → RectFits f.borderBox ∧ borderWidthsValid f.borderBox widths = true) ∧
      ∀ runs, f.kind = .text runs → ∀ run ∈ runs, emitsRun tree run = true → run.glyphs.length ≤ maxGlyphsPerRun ∧
        ∀ glyph ∈ run.glyphs, run.origin.x.AddFits glyph.x ∧ run.origin.y.AddFits glyph.y := by
  unfold ownItems
  cases hk : f.kind with
  | block =>
    cases hin : InflatedViewport.intersectsRect (.new (viewportBounds tree)) f.borderBox with
    | false => simp
    | true =>
      simp only [if_true, List.forall_mem_append, backgroundItems_fit hin, borderItems_fit hin, forall_const, reduceCtorEq,
        false_imp_iff, and_true]
  | anonymousBlock => simp
  | line => simp
  | text runs =>
    simp only [reduceCtorEq, false_imp_iff, true_and, FragmentKind.text.injEq, forall_eq']
    exact runs_fit

/-! ## The recursive painter -/

/-- What the validator asks of one fragment: that its own items fit, and that its clip is not too deep. -/
def FragmentFits (Γ : FloatOps) (tree : FragmentTree) (suppressed : Option FragmentId) (id : FragmentId) : Prop :=
  (∀ f, tree.get id = some f → ∀ item ∈ ownItems f (resolveStyle Γ tree f.style) (suppressed = some id)
    (.new (viewportBounds tree)), item.Fits (inflate (viewportBounds tree)) 0) ∧
  ∀ path, Ancestors tree.kids tree.root id path → (styleClip Γ tree id).isSome →
    (path.filterMap (styleClip Γ tree)).length < maxClipDepth

/-- What a forest emits below a path closes its own clips, and fits exactly if each of its fragments does. -/
theorem paintForest_fits (hv : Displayable tree.viewport) (hu : Forest.UniqueParents tree.kids)
    (hroot : ∀ p, tree.root ∉ tree.kids p) (suppressed : Option FragmentId) (F : Forest FragmentId) (hF : F.Follows tree.kids)
    (hr : ∀ id ∈ F.preorder, ∃ fragment, tree.get id = some fragment) (path : List FragmentId)
    (ha : ∀ id ∈ F.roots, Ancestors tree.kids tree.root id path) :
    (paintForest Γ tree suppressed (.new (viewportBounds tree)) F).foldl depthAfter
        (path.filterMap (styleClip Γ tree)).length = (path.filterMap (styleClip Γ tree)).length ∧
      (ItemsFit (inflate (viewportBounds tree)) (path.filterMap (styleClip Γ tree)).length
          (paintForest Γ tree suppressed (.new (viewportBounds tree)) F) ↔
        ∀ id ∈ F.preorder, FragmentFits Γ tree suppressed id) := by
  induction F generalizing path with
  | nil => exact ⟨rfl, by simp [paintForest, ItemsFit, Forest.preorder]⟩
  | cons id K R ihK ihR =>
    obtain ⟨hK, hK', hR'⟩ := hF
    obtain ⟨f, hf⟩ := hr id List.mem_cons_self
    have haid := ha id List.mem_cons_self
    obtain ⟨hdepthR, hfitR⟩ := ihR hR' (fun x hx => hr x (List.mem_cons_of_mem _ (List.mem_append_right _ hx)))
      path fun x hx => ha x (List.mem_cons_of_mem _ hx)
    obtain ⟨hdepthK, hfitK⟩ := ihK hK' (fun x hx => hr x (List.mem_cons_of_mem _ (List.mem_append_left _ hx)))
      (path ++ [id]) fun x hx => haid.child (hK ▸ hx)
    -- the fragment itself: its ancestors are the path
    have hself : FragmentFits Γ tree suppressed id ↔
        (∀ item ∈ ownItems f (resolveStyle Γ tree f.style) (suppressed = some id) (.new (viewportBounds tree)),
          item.Fits (inflate (viewportBounds tree)) 0) ∧
        ((styleClip Γ tree id).isSome → (path.filterMap (styleClip Γ tree)).length < maxClipDepth) := by
      refine and_congr ⟨fun h => h f hf, fun h g hg => ?_⟩ ⟨fun h => h path haid, fun h path' ha' => ?_⟩
      · obtain rfl := Option.some.inj (hf.symm.trans hg)
        exact h
      · rwa [← haid.unique hu hroot ha']
    obtain ⟨hdepthown, hfitown⟩ := itemsFit_plain (inflate (viewportBounds tree))
      (clipBracket_ownItems f (resolveStyle Γ tree f.style) (suppressed = some id) (.new (viewportBounds tree)))
      (path.filterMap (styleClip Γ tree)).length
    simp only [paintForest, hf, List.foldl_append, ItemsFit_append, Forest.preorder, List.forall_mem_cons,
      List.forall_mem_append, hself]
    by_cases hover : (resolveStyle Γ tree f.style).overflow = .hidden
    · have hclip := styleClip_eq_some hf hover
      have hlen : ((path ++ [id]).filterMap (styleClip Γ tree)).length = (path.filterMap (styleClip Γ tree)).length + 1 := by
        rw [List.filterMap_append, List.length_append, List.filterMap_cons, hclip]
        rfl
      rw [hlen] at hdepthK hfitK
      simp only [if_pos hover, hdepthown, hfitown, List.foldl_cons, List.foldl_append, depthAfter, List.foldl_nil, hdepthK,
        Nat.add_sub_cancel, hdepthR, hfitR, ItemsFit, ItemsFit_append, hfitK, DisplayItem.Fits, part_fits hv, hclip,
        Option.isSome_some, forall_const, ne_eq, Nat.add_one_ne_zero, not_false_eq_true, and_true, true_and,
        Nat.succ_le_iff, and_assoc]
    · have hclip := styleClip_eq_none hf hover
      have hlen : ((path ++ [id]).filterMap (styleClip Γ tree)).length = (path.filterMap (styleClip Γ tree)).length := by
        rw [List.filterMap_append, List.length_append, List.filterMap_cons, hclip]
        rfl
      rw [hlen] at hdepthK hfitK
      simp only [if_neg hover, hdepthown, hfitown, hdepthK, hdepthR, hfitR, hfitK, hclip, Option.isSome_none,
        Bool.false_eq_true, false_imp_iff, and_true, and_assoc]

/-- The number of items a forest emits. -/
theorem length_paintForest (canvas : CanvasBackground) (F : Forest FragmentId) :
    (hr : ∀ id ∈ F.preorder, ∃ fragment, tree.get id = some fragment) →
    (paintForest Γ tree canvas.suppressedFragment (.new (viewportBounds tree)) F).length
      = (F.preorder.map (itemCount Γ tree canvas)).sum := by
  intro hr
  induction F with
  | nil => rfl
  | cons id K R ihK ihR =>
    obtain ⟨f, hf⟩ := hr id List.mem_cons_self
    have hK := ihK fun x hx => hr x (List.mem_cons_of_mem _ (List.mem_append_left _ hx))
    have hR := ihR fun x hx => hr x (List.mem_cons_of_mem _ (List.mem_append_right _ hx))
    simp only [paintForest, hf, Forest.preorder, List.map_cons, List.map_append, List.sum_cons, List.sum_append,
      List.length_append, hR, itemCount]
    split
    · simp only [List.length_cons, List.length_append, List.length_nil, hK]
      omega
    · rw [hK]
      omega

/-! ## Layouts -/

section

variable {F : Forest FragmentData} (ho : Block.HasOutline tree F)
include ho

/-- The ids of the outline are all the ids of the tree. -/
theorem preorder_perm : (Postorder.ids FragmentId.mk 0 F).preorder.Perm ((List.range tree.len).map FragmentId.mk) := by
  refine (List.perm_ext_iff_of_nodup (Postorder.nodup_preorder_ids Block.HasOutline.mk_injective 0 F)
    (List.nodup_range.map Block.HasOutline.mk_injective)).2 fun id => ?_
  rw [Postorder.mem_preorder_ids, List.mem_map, ho.len]
  constructor
  · rintro ⟨i, -, hi, rfl⟩
    exact ⟨i, List.mem_range.2 (by omega), rfl⟩
  · rintro ⟨i, hi, rfl⟩
    exact ⟨i, Nat.zero_le _, by have := List.mem_range.1 hi; omega, rfl⟩

/-- The painter's list, and when the validator accepts it. -/
theorem validate_build (hv : Displayable tree.viewport) (document : Document) :
    ∃ canvas dl, canvasBackground Γ tree document = .some canvas ∧ build Γ tree document = .some dl ∧
      (validate dl (viewportBounds tree) = .ok () ↔ WithinLimits Γ tree canvas) := by
  have hr : ∀ id ∈ (Postorder.ids FragmentId.mk 0 F).preorder, ∃ fragment, tree.get id = some fragment :=
    fun id hid => ho.mem_ids_iff.1 hid
  have hsize : (Postorder.ids FragmentId.mk 0 F).size ≤ tree.len := by rw [Postorder.size_ids, ho.len]
  have hroots : (Postorder.ids FragmentId.mk 0 F).roots = [tree.root] := ho.root.symm
  refine ⟨_, _, canvasBackground_eq hroots ho.follows hr hsize, build_eq_of_forest document hroots ho.follows hr hsize
    (Or.inl hv.widenable), ?_⟩
  generalize hcanvas : canvasOf Γ tree document (Postorder.ids FragmentId.mk 0 F) = canvas
  have hitems : (paintTree Γ tree document (Postorder.ids FragmentId.mk 0 F)).items = canvasItems tree canvas ++
      paintForest Γ tree canvas.suppressedFragment (.new (viewportBounds tree)) (Postorder.ids FragmentId.mk 0 F) := by
    rw [← hcanvas]
    rfl
  have hcount : (paintTree Γ tree document (Postorder.ids FragmentId.mk 0 F)).items.length
      = (canvasItems tree canvas).length + ((List.range tree.len).map fun i => itemCount Γ tree canvas ⟨i⟩).sum := by
    rw [hitems, List.length_append, length_paintForest canvas _ hr, ((preorder_perm ho).map _).sum_nat, List.map_map]
    rfl
  obtain ⟨hdepth, hfit⟩ := paintForest_fits (Γ := Γ) hv ho.wellFormed.uniqueParents ho.root_not_child
    canvas.suppressedFragment _ ho.follows hr [] (fun id hid => by
      rw [hroots] at hid
      obtain rfl := List.mem_singleton.1 hid
      exact .root)
  obtain ⟨hcdepth, hcfit⟩ := itemsFit_plain (inflate (viewportBounds tree)) (clipBracket_canvasItems tree canvas) 0
  have hcanvasfit := hcfit.2 (canvasItems_fit hv canvas)
  simp only [List.filterMap_nil, List.length_nil] at hdepth hfit
  rw [validate_eq_ok, hcount, hitems, ItemsFit_append, List.foldl_append, hcdepth, hdepth, hfit]
  simp only [boundsIsValid_viewport hv, hcanvasfit, true_and, and_true]
  constructor
  · rintro ⟨hmax, hfits⟩
    have hfrag : ∀ id f, tree.get id = some f → FragmentFits Γ tree canvas.suppressedFragment id :=
      fun id f hf => hfits id (ho.mem_ids_iff.2 ⟨f, hf⟩)
    refine ⟨hmax, fun id path hpath hclip => ?_, fun id f hf hk hin => ?_, fun id f hf hk hin => ?_, fun id f runs hf hk => ?_⟩
    · obtain ⟨clip, hsome⟩ := Option.isSome_iff_exists.1 hclip
      obtain ⟨f, hf, -⟩ := Option.bind_eq_some_iff.1 hsome
      exact (hfrag id f hf).2 path hpath hclip
    · exact ((ownItems_fit.1 ((hfrag id f hf).1 f hf)).1 hk hin).1
    · exact ((ownItems_fit.1 ((hfrag id f hf).1 f hf)).1 hk hin).2
    · exact (ownItems_fit.1 ((hfrag id f hf).1 f hf)).2 runs hk
  · intro hw
    refine ⟨hw.count, fun id _ => ⟨fun f hf => ownItems_fit.2 ⟨fun hk hin => ?_, fun runs => hw.text id f runs hf⟩, hw.depth id⟩⟩
    exact ⟨hw.background id f hf hk hin, hw.border id f hf hk hin⟩

end

/-- The display list of a layout is accepted exactly if the sizes that layout does not bound are within the limits. -/
theorem accepted_iff (h : Block.layout Γ shape doc viewport = .some (.ok tree)) (hv : Displayable viewport) :
    ∃ canvas dl, canvasBackground Γ tree doc.document = .some canvas ∧ build Γ tree doc.document = .some dl ∧
      (validate dl ⟨.zero, viewport⟩ = .ok () ↔ WithinLimits Γ tree canvas) := by
  obtain ⟨⟨F, ho⟩, -, rfl⟩ := Block.layout_outline h
  exact validate_build ho hv doc.document

/-! ## A block that is too wide -/

theorem displayable_window : Displayable Block.window := by
  unfold Displayable
  decide

/-- The theorem at the layout of a letter in a block that clips. -/
theorem accepted_iff_hidden :
    ∃ canvas dl,
      canvasBackground .sample (Block.letterFragments hiddenStyle .zero) (Block.letter hiddenStyle).document = .some canvas ∧
      build .sample (Block.letterFragments hiddenStyle .zero) (Block.letter hiddenStyle).document = .some dl ∧
      (validate dl ⟨.zero, Block.window⟩ = .ok () ↔
        WithinLimits .sample (Block.letterFragments hiddenStyle .zero) canvas) :=
  accepted_iff layout_hidden displayable_window

/-- The widest block there is, eight pixels from the left edge, with a background. -/
def wideStyle : LayoutStyle :=
  { Block.marginStyle 0 0 with
    width := .px .maxValue
    margin := { Sides.uniform (.px .zero) with left := .px (.fromPx 8) }
    background := .black }

/-- The fragments of a letter in that block. -/
def wideFragments : FragmentTree :=
  let block : Rect := ⟨⟨.fromPx 8, .zero⟩, ⟨.maxValue, .saturate 1152⟩⟩
  let text : Rect := ⟨⟨.fromPx 8, .zero⟩, ⟨.fromPx 8, .saturate 1152⟩⟩
  let html : Rect := ⟨.zero, ⟨Block.window.w, .saturate 1152⟩⟩
  let run : GlyphRun := ⟨⟨0⟩, .fromPx 16, ⟨.fromPx 8, .fromPx 15⟩, [⟨91, .zero, .zero, .fromPx 8⟩], .black⟩
  { fragments :=
      [⟨some (.fromIndex 3), .text [run], text, text, text, ⟨0⟩, []⟩, ⟨none, .line, block, block, block, ⟨1⟩, [⟨0⟩]⟩,
        ⟨some (.fromIndex 2), .block, block, block, block, ⟨2⟩, [⟨1⟩]⟩,
        ⟨some (.fromIndex 1), .block, html, html, html, ⟨3⟩, [⟨2⟩]⟩]
    styles := [.inheritedTextStyle .sample wideStyle, wideStyle, wideStyle, Block.marginStyle 0 0]
    root := ⟨3⟩
    viewport := Block.window }

theorem layout_wide : Block.layout .sample Block.oneGlyph (Block.letter wideStyle) Block.window = .some (.ok wideFragments) :=
  Block.layout_of_run (show BoxGen.build .sample (Block.letter wideStyle) = .some (Block.letterTree wideStyle) from
    BoxGen.build_of_run 12 (.fromIndex 1) (by decide) (by decide) (by decide))
    (Block.run_letterTree (by decide) (by decide +kernel))

/-- There is no canvas background: that of `html` is transparent, and there is no `body`. -/
theorem canvasBackground_wide :
    canvasBackground .sample wideFragments (Block.letter wideStyle).document = .some ⟨none, none⟩ := by
  have hhtml : findElementFragment wideFragments (Block.letter wideStyle).document "html" = .some (some ⟨3⟩) :=
    While.loop_of_run (n := 1) (by decide)
  have hbody : findElementFragment wideFragments (Block.letter wideStyle).document "body" = .some none :=
    While.loop_of_run (n := 5) (by decide)
  unfold canvasBackground
  rw [hhtml, hbody, Part.bind_eq_bind, Part.bind_some]
  exact Part.bind_some _ _

/-- The background of that block survives culling and is no valid rect. -/
theorem accepted_false : ¬∀ (Γ : FloatOps) (shape : Shaper) (doc : StyledDocument) (viewport : Size) (tree : FragmentTree)
    (dl : DisplayList), Block.layout Γ shape doc viewport = .some (.ok tree) → Displayable viewport →
      build Γ tree doc.document = .some dl → validate dl ⟨.zero, viewport⟩ = .ok () := by
  intro h
  obtain ⟨⟨F, ho⟩, -, -⟩ := Block.layout_outline layout_wide
  obtain ⟨canvas, dl, hc, hb, hiff⟩ := validate_build (Γ := .sample) ho displayable_window (Block.letter wideStyle).document
  obtain rfl := Part.some_injective (hc.symm.trans canvasBackground_wide)
  have hw := hiff.1 (h _ _ _ _ _ _ layout_wide displayable_window hb)
  have hfits := hw.background ⟨2⟩ _ rfl rfl (by decide) (by decide)
  revert hfits
  unfold RectFits
  decide

end Paint

end ChromeLight
