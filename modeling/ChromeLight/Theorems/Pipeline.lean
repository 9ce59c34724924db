import ChromeLight.Lemmas.Shaped
import ChromeLight.Lemmas.Shading
import ChromeLight.Pipeline
import ChromeLight.Theorems.Encoding
import ChromeLight.Theorems.Fonts
import ChromeLight.Theorems.Sheets
import ChromeLight.Theorems.Validate

/-!
# Rendering

Whatever its bytes, a document renders: the pipeline returns, and exactly what it returns is one of five outcomes
(`renderBytes_exact`). No stage fails because of what an earlier one made, apart from what the validator refuses; the rasterizer
never misses a font, and what is painted is an opaque canvas of the size that was asked for.
-/

namespace ChromeLight

/-! ## The rasterizer -/

namespace Gfx

/-- A pixmap of that size, opaque everywhere. -/
structure Canvas (width height : UInt32) (p : Pixmap) : Prop where
  width : p.width = width
  height : p.height = height
  pixels : p.Opaque

/-- Filling a rect keeps the canvas opaque. -/
def Backend.FillsCanvas (Γ : Backend) : Prop :=
  ∀ {width height p}, Canvas width height p → ∀ left top right bottom color,
    Canvas width height (Γ.fillRect p left top right bottom color)

variable {Γ : Backend} {width height : UInt32} {p : Pixmap}

/-- A brush that keeps pixels opaque keeps the canvas opaque. -/
theorem Canvas.fillRect (h : Canvas width height p) (brush : Brush) {left top right bottom : Au} {color : Rgba8}
    (hpaint : ∀ {c : PremultipliedColorU8}, c.Valid ∧ c.alpha = 255 → (brush.paint color c).Valid ∧ (brush.paint color c).alpha = 255) :
    Canvas width height (brush.fillRect p left top right bottom color) := by
  refine ⟨h.width, h.height, ?_⟩
  intro c hc
  obtain ⟨i, hi, rfl⟩ := List.mem_mapIdx.1 hc
  have hpixel := h.pixels _ (List.getElem_mem hi)
  split
  · exact hpaint hpixel
  · exact hpixel

/-- A call of the rasterizer keeps the canvas opaque. -/
theorem Canvas.exec (law : Γ.Premultiplies) (hΓ : Γ.FillsCanvas) (h : Canvas width height p) (draw : Draw) :
    Canvas width height (Draw.exec Γ p draw) := by
  cases draw with
  | fillRect left top right bottom color => exact hΓ h left top right bottom color
  | blit font size glyph penX penY color clip =>
    exact ⟨h.width, h.height, h.pixels.blit law ⟨(Γ.render font (Γ.toPx size) glyph).getD .default, penX, penY, color, clip⟩⟩

/-- Calls of the rasterizer keep the canvas opaque. -/
theorem Canvas.foldl_exec (law : Γ.Premultiplies) (hΓ : Γ.FillsCanvas) (h : Canvas width height p) (draws : List Draw) :
    Canvas width height (draws.foldl (Draw.exec Γ) p) := by
  induction draws generalizing p with
  | nil => exact h
  | cons draw draws ih => exact ih (h.exec law hΓ draw)

/-- The white canvas is opaque. -/
theorem Canvas.white (width height : UInt32) : Canvas width height (.white width.toNat height.toNat) where
  width := UInt32.ofNat_toNat
  height := UInt32.ofNat_toNat
  pixels := by
    intro c hc
    rw [List.eq_of_mem_replicate hc]
    decide

/-- The texts of some items are in faces that parse. -/
def Resolves (fonts : FontDb) (items : List DisplayItem) : Prop :=
  ∀ run, .text run ∈ items → ∃ face, fonts run.font = some face ∧ face.parses = true

/-- A run in a face that parses can be planned. -/
theorem exists_runPlan {fonts : FontDb} {run : GlyphRun} {face : FontFace} (hface : fonts run.font = some face)
    (hparses : face.parses = true) (clip : Rect) : ∃ plan, runPlan fonts run clip = .ok plan := by
  unfold runPlan
  rw [hface]
  dsimp only
  split
  · exact ⟨none, rfl⟩
  · split
    · exact ⟨none, rfl⟩
    · split
      · exact ⟨none, rfl⟩
      · rename_i pixels _ _
        rw [hparses]
        exact ⟨some pixels, rfl⟩

/-- Items in faces that parse can be painted. -/
theorem exists_paintItems {fonts : FontDb} {items : List DisplayItem} (h : Resolves fonts items) (Γ : Backend) (bounds : Rect)
    (clips : List Rect) (s : Painting) : ∃ s', paintItems Γ fonts bounds clips s items = .ok s' := by
  induction items generalizing clips s with
  | nil => exact ⟨s, rfl⟩
  | cons item items ih =>
    have hrest : Resolves fonts items := fun run hrun => h run (List.mem_cons_of_mem _ hrun)
    have hitem : ∃ r, paintItem Γ fonts bounds clips s item = .ok r := by
      cases item with
      | text run =>
        obtain ⟨face, hface, hparses⟩ := h run List.mem_cons_self
        obtain ⟨plan, hplan⟩ := exists_runPlan hface hparses (clips.getLast?.getD bounds)
        rw [paintItem]
        simp only [paintRun_eq_runPlan, hplan, Except.map]
        exact ⟨_, rfl⟩
      | _ => exact ⟨_, rfl⟩
    obtain ⟨⟨clips', s'⟩, hr⟩ := hitem
    rw [paintItems, hr]
    exact ih hrest clips' s'

/-- What comes of a list whose texts are in faces that parse. -/
theorem rasterizeWithStats_cases {fonts : FontDb} {dl : DisplayList} (h : Resolves fonts dl.items) (Γ : Backend)
    (width height : Nat) :
    ((width = 0 ∨ height = 0 ∨ maxDimension < width ∨ maxDimension < height) ∧
      rasterizeWithStats Γ fonts dl width height = .error (.pixmapTooLarge width height)) ∨
    (¬(width = 0 ∨ height = 0 ∨ maxDimension < width ∨ maxDimension < height)) ∧
      ((∃ e, validate dl (canvasBounds width height) = .error e ∧
          rasterizeWithStats Γ fonts dl width height = .error (.invalid e)) ∨
        validate dl (canvasBounds width height) = .ok () ∧ ∃ draws stats,
          (rasterize .saturating fonts dl width height).run = .ok draws ∧
          rasterizeWithStats Γ fonts dl width height = .ok (draws.foldl (Draw.exec Γ) (.white width height), stats)) := by
  by_cases hsize : width = 0 ∨ height = 0 ∨ maxDimension < width ∨ maxDimension < height
  · exact .inl ⟨hsize, if_pos hsize⟩
  · refine .inr ⟨hsize, ?_⟩
    cases hvalid : validate dl (canvasBounds width height) with
    | error e =>
      refine .inl ⟨e, rfl, ?_⟩
      rw [rasterizeWithStats, if_neg hsize, hvalid]
    | ok u =>
      refine .inr ⟨rfl, ?_⟩
      obtain ⟨s, hs⟩ := exists_paintItems h Γ (canvasBounds width height) [canvasBounds width height]
        ⟨.default, .white width height, .default⟩
      have hok : rasterizeWithStats Γ fonts dl width height = .ok (s.pixmap, s.stats) := by
        rw [rasterizeWithStats, if_neg hsize, hvalid]
        simp only [hs]
      have heq := rasterizeWithStats_eq Γ fonts dl width height
      rw [hok] at heq
      cases hdraws : (rasterize .saturating fonts dl width height).run with
      | error e =>
        rw [hdraws] at heq
        cases heq
      | ok draws =>
        rw [hdraws] at heq
        have hpixmap : s.pixmap = draws.foldl (Draw.exec Γ) (.white width height) := Except.ok.inj heq
        exact ⟨draws, s.stats, rfl, by rw [hok, hpixmap]⟩

end Gfx

/-! ## The stages -/

/-- Whatever the calls, parsing returns a tree. -/
theorem parseTree_eq (baseUrl : String) (calls : List DomSink.TreeCall) :
    ∃ document isTree, parseTree baseUrl calls = .some ⟨document, isTree⟩ ∧ document.baseUrl = baseUrl := by
  obtain ⟨output, kids, hparse, t, hurl⟩ := DomSink.tree_of_parse baseUrl calls
  obtain ⟨hdom, hget⟩ := Part.eq_some_iff.1 hparse
  refine ⟨output.document, ⟨kids, t⟩, Part.eq_some_iff.2 ⟨hdom, ?_⟩, hurl⟩
  exact Subtype.ext (congrArg ParseOutputInner.document hget)

/-- A size is finite and positive exactly if it is not zero. -/
theorem ofU32_positive {n : UInt32} : (F32.ofU32 n).isFinite = true ∧ (F32.ofU32 n).isPositive = true ↔ n ≠ 0 := by
  rw [F32.isFinite_ofU32, F32.isPositive_ofU32]
  simp

namespace Engines

variable {υ ρ ε δ : Type}

/-- What the pipeline relies on: a URL's text parses to it, as the one of the bundled sheet does to some URL; the bundled fonts
register, and parse; a premultiplied color is one whose channels are at most its alpha, and a filled rect is opaque. -/
structure Lawful (E : Engines υ ρ ε δ) : Prop where
  parse_asStr : ∀ url, E.urls.parse (E.urls.asStr url) = .ok url
  ua : ∃ url, E.urls.parse Style.StyleEngine.uaBaseUrl = .ok url
  fonts : ∃ db, Fonts.FontDb.bundled E.register E.ahem E.notoSans = .ok db ∧
    ∀ face ∈ db.faces, E.parses face.data face.index = true
  premultiplies : E.raster.Premultiplies
  canvas : E.raster.FillsCanvas

variable {E : Engines υ ρ ε δ} {bytes : Bytes} {base : υ} {width height : UInt32} {db : Fonts.FontDb δ}

/-- Collecting the sheets of a parsed document fails only for an empty viewport. -/
theorem collectSheets_cases (hE : E.Lawful) {document : Document} (htree : ∃ kids, document.Tree kids)
    (hurl : document.baseUrl = E.urls.asStr base) (width height : UInt32) :
    (width = 0 ∨ height = 0) ∧ E.collectSheets width height document = .error .device ∨
      (width ≠ 0 ∧ height ≠ 0) ∧ ∃ engine warnings, E.collectSheets width height document = .ok (engine, warnings) := by
  obtain ⟨kids, t⟩ := htree
  have hsize : ((F32.ofU32 width).isFinite = true ∧ (F32.ofU32 height).isFinite = true ∧ (F32.ofU32 width).isPositive = true ∧
      (F32.ofU32 height).isPositive = true) ↔ width ≠ 0 ∧ height ≠ 0 := by
    rw [← ofU32_positive, ← ofU32_positive]
    tauto
  unfold collectSheets Style.StyleEngine.new
  by_cases h : width ≠ 0 ∧ height ≠ 0
  · right
    refine ⟨h, ?_⟩
    rw [if_pos (hsize.2 h)]
    obtain ⟨ua, hua⟩ := hE.ua
    have hbase : E.urls.parse document.baseUrl = .ok base := by rw [hurl, hE.parse_asStr]
    simp only [bind, Except.bind, Style.StyleEngine.addUaSheet, Style.StyleEngine.addUaSheetFrom,
      Style.StyleEngine.buildAndAppend, hua, pure, Except.pure]
    obtain ⟨F, outcomes, -, -, -, hcollect⟩ := Style.collectDocumentSheets_tree t hbase E.loadSheet _
    exact ⟨_, _, hcollect⟩
  · left
    refine ⟨by tauto, ?_⟩
    rw [if_neg (fun hs => h (hsize.1 hs))]
    rfl

/-- A viewport within the limit is the canvas. -/
theorem viewportOf_eq (hw : width.toNat ≤ Gfx.maxDimension) (hh : height.toNat ≤ Gfx.maxDimension) :
    (⟨.zero, viewportOf width height⟩ : Rect) = Gfx.canvasBounds width.toNat height.toNat := by
  unfold Gfx.maxDimension at hw hh
  rw [viewportOf, fromPxF32_ofU32 (by omega), fromPxF32_ofU32 (by omega)]
  rfl

/-- No window is so small that it is inside out. -/
theorem widenable_viewportOf (width height : UInt32) : Paint.Widenable (viewportOf width height) := by
  have hw := fromPxF32_ofU32_nonneg width
  have hh := fromPxF32_ofU32_nonneg height
  unfold Paint.Widenable viewportOf
  dsimp only
  omega

/-- A viewport that is not empty and within the limit can be displayed. -/
theorem displayable_viewportOf (hw0 : width ≠ 0) (hh0 : height ≠ 0) (hw : width.toNat ≤ Gfx.maxDimension)
    (hh : height.toNat ≤ Gfx.maxDimension) : Paint.Displayable (viewportOf width height) := by
  unfold Gfx.maxDimension at hw hh
  have hw0' : width.toNat ≠ 0 := fun h => hw0 (UInt32.toNat_inj.1 h)
  have hh0' : height.toNat ≠ 0 := fun h => hh0 (UInt32.toNat_inj.1 h)
  have units : ∀ n : Nat, n ≤ 16384 → (Au.fromPx n).units = 60 * n := by
    intro n hn
    rw [Au.fromPx, Au.units_saturate]
    omega
  rw [viewportOf, fromPxF32_ofU32 (by omega), fromPxF32_ofU32 (by omega)]
  simp only [Paint.Displayable, units _ hw, units _ hh]
  omega

section Styling

variable [DecidableEq ε]

/-- The document of some bytes, styled, and the warnings about its sheets. -/
def Styles (E : Engines υ ρ ε δ) (bytes : Bytes) (base : υ) (width height : UInt32) (styled : StyledDocument)
    (warnings : List String) : Prop :=
  ∃ document isTree engine sheetWarnings, E.parseDocument bytes base = .some ⟨document, isTree⟩ ∧
    E.collectSheets width height document = .ok (engine, sheetWarnings) ∧
    styled = { document, isTree, computed := E.cascade engine document } ∧ warnings = sheetWarnings.map formatWarning

/-- Two ways of styling a document are one. -/
theorem Styles.unique {styled styled' : StyledDocument} {warnings warnings' : List String}
    (h : E.Styles bytes base width height styled warnings) (h' : E.Styles bytes base width height styled' warnings') :
    styled = styled' ∧ warnings = warnings' := by
  obtain ⟨document, isTree, engine, sheetWarnings, hparse, hcollect, rfl, rfl⟩ := h
  obtain ⟨document', isTree', engine', sheetWarnings', hparse', hcollect', rfl, rfl⟩ := h'
  obtain rfl := congrArg Subtype.val (Part.some_injective (hparse.symm.trans hparse'))
  obtain ⟨rfl, rfl⟩ := Prod.mk.inj (Except.ok.inj (hcollect.symm.trans hcollect'))
  exact ⟨rfl, rfl⟩

/-- With a viewport there is a device. -/
theorem Styles.viewport (hE : E.Lawful) {styled : StyledDocument} {warnings : List String}
    (h : E.Styles bytes base width height styled warnings) : ¬(width = 0 ∨ height = 0) := by
  obtain ⟨document, isTree, engine, sheetWarnings, hparse, hcollect, -, -⟩ := h
  obtain ⟨document', isTree', hparse', hurl⟩ := parseTree_eq (E.urls.asStr base) (E.treeBuilder (E.text bytes))
  obtain rfl := congrArg Subtype.val (Part.some_injective (hparse.symm.trans hparse'))
  rcases collectSheets_cases hE isTree hurl width height with ⟨-, herror⟩ | ⟨hsize, -⟩
  · cases hcollect.symm.trans herror
  · tauto

end Styling

section Painting

variable [DecidableEq δ]

/-- The keys of runs are those of faces. -/
theorem face_of_uses (hdb : Fonts.FontDb.bundled E.register E.ahem E.notoSans = .ok db) {font : FontKey}
    (h : Shaper.Uses (Fonts.textShaper E.textFloats db E.parley) font) : ∃ face ∈ db.faces, db.face font = some face := by
  obtain ⟨items, style, available, lines, hlines, line, hline, run, hrun, rfl⟩ := h
  rcases Fonts.layoutInline_cases E.textFloats db.shaperFaces E.parley items style available with
    ⟨boxes, hboxes, -, hruns⟩ | ⟨herror, -⟩
  · obtain rfl := Except.ok.inj (hlines.symm.trans hboxes)
    obtain ⟨source, -, hkey, -⟩ := hruns line hline run hrun
    exact Fonts.exists_face_of_keyForFont (Fonts.bundled_ok hdb).keyed hkey
  · have := hlines.symm.trans herror
    cases this

/-- The list of a layout resolves in the database. -/
theorem resolves_build (hE : E.Lawful) (hdb : Fonts.FontDb.bundled E.register E.ahem E.notoSans = .ok db) {items : List DisplayItem}
    (hitems : ∀ run, .text run ∈ items → Shaper.Uses (Fonts.textShaper E.textFloats db E.parley) run.font) :
    Gfx.Resolves (db.rasterDb E.parses) items := by
  intro run hrun
  obtain ⟨face, hmem, hface⟩ := face_of_uses hdb (hitems run hrun)
  obtain ⟨db', hdb', hparses⟩ := hE.fonts
  obtain rfl := Except.ok.inj (hdb.symm.trans hdb')
  refine ⟨{ family := face.family, index := face.index.toNat, parses := E.parses face.data face.index }, ?_, hparses face hmem⟩
  rw [Fonts.FontDb.rasterDb, hface]
  rfl

/-- Painting, once there is a layout and a list. -/
theorem paintDocument_eq {styled : StyledDocument} {fragments : FragmentTree} {displayList : DisplayList}
    (hlayout : Block.layout E.floats (Fonts.textShaper E.textFloats db E.parley) styled (viewportOf width height) =
      .some (.ok fragments)) (hpaint : Paint.build E.floats fragments styled.document = .some displayList) :
    E.paintDocument styled db width height =
      match Gfx.rasterizeWithStats E.raster (db.rasterDb E.parses) displayList width.toNat height.toNat with
      | .error e => .some (.error (.gfx e))
      | .ok (pixmap, _) => .some (.ok pixmap) := by
  rw [paintDocument, hlayout, Part.bind_eq_bind, Part.bind_some]
  dsimp only
  rw [hpaint]
  exact Part.bind_some _ _

/-- What was laid out is painted. -/
theorem exists_build {styled : StyledDocument} {fragments : FragmentTree}
    (hlayout : Block.layout E.floats (Fonts.textShaper E.textFloats db E.parley) styled (viewportOf width height) =
      .some (.ok fragments)) : ∃ displayList, Paint.build E.floats fragments styled.document = .some displayList := by
  rcases Block.layout_cases E.floats (Fonts.textShaper E.textFloats db E.parley) styled (viewportOf width height) with
    ⟨e, herror, -⟩ | ⟨fragments', F, hok, hviewport, ho, -⟩
  · have := Part.some_injective (hlayout.symm.trans herror)
    cases this
  · obtain rfl := Except.ok.inj (Part.some_injective (hlayout.symm.trans hok))
    obtain ⟨displayList, hpaint, -⟩ := Paint.text_of_build (Γ := E.floats) ho
      (hviewport ▸ widenable_viewportOf width height) styled.document
    exact ⟨displayList, hpaint⟩

end Painting

variable [DecidableEq ε] [DecidableEq δ]

/-- What a rendering comes to, over a font database. -/
inductive Renders (E : Engines υ ρ ε δ) (db : Fonts.FontDb δ) (bytes : Bytes) (base : υ) (width height : UInt32) :
    Except ShellError RenderOutput → Prop where
  /-- There is no viewport. -/
  | noDevice (h : width = 0 ∨ height = 0) : Renders E db bytes base width height (.error (.style .device))
  /-- Some text was shaped in a font that is not one of the database. -/
  | unbundledFont {styled : StyledDocument} {warnings : List String} {items : List InlineItem} {style : LayoutStyle} {available : Au}
      {run : Fonts.ParleyRun δ} (hstyled : E.Styles bytes base width height styled warnings)
      (hlayout : Block.layout E.floats (Fonts.textShaper E.textFloats db E.parley) styled (viewportOf width height) =
        .some (.error (.fontNotBundled (", ".intercalate style.fontFamily))))
      (hrun : Fonts.ShapedBy E.parley items style available run) (hfont : Fonts.keyForFont db.shaperFaces run.font = none) :
      Renders E db bytes base width height (.error (.layout (.fontNotBundled (", ".intercalate style.fontFamily))))
  /-- The viewport is too large to rasterize. -/
  | tooLarge {styled : StyledDocument} {warnings : List String} {fragments : FragmentTree}
      (hstyled : E.Styles bytes base width height styled warnings)
      (hlayout : Block.layout E.floats (Fonts.textShaper E.textFloats db E.parley) styled (viewportOf width height) =
        .some (.ok fragments)) (h : Gfx.maxDimension < width.toNat ∨ Gfx.maxDimension < height.toNat) :
      Renders E db bytes base width height (.error (.gfx (.pixmapTooLarge width.toNat height.toNat)))
  /-- A size that layout does not bound is above the validator's limits. -/
  | invalid {styled : StyledDocument} {warnings : List String} {fragments : FragmentTree} {canvas : Paint.CanvasBackground}
      {displayList : DisplayList} {e : DisplayListError} (hstyled : E.Styles bytes base width height styled warnings)
      (hlayout : Block.layout E.floats (Fonts.textShaper E.textFloats db E.parley) styled (viewportOf width height) =
        .some (.ok fragments)) (hsize : width.toNat ≤ Gfx.maxDimension ∧ height.toNat ≤ Gfx.maxDimension)
      (hcanvas : Paint.canvasBackground E.floats fragments styled.document = .some canvas)
      (hlimits : ¬Paint.WithinLimits E.floats fragments canvas)
      (hpaint : Paint.build E.floats fragments styled.document = .some displayList)
      (hvalid : validate displayList (Gfx.canvasBounds width.toNat height.toNat) = .error e) :
      Renders E db bytes base width height (.error (.gfx (.invalid e)))
  /-- The painter's list is drawn on a white canvas of the viewport's size, which stays opaque. -/
  | painted {styled : StyledDocument} {warnings : List String} {fragments : FragmentTree} {canvas : Paint.CanvasBackground}
      {displayList : DisplayList} {draws : List Gfx.Draw} {pixmap : Gfx.Pixmap}
      (hstyled : E.Styles bytes base width height styled warnings)
      (hlayout : Block.layout E.floats (Fonts.textShaper E.textFloats db E.parley) styled (viewportOf width height) =
        .some (.ok fragments)) (hcanvas : Paint.canvasBackground E.floats fragments styled.document = .some canvas)
      (hlimits : Paint.WithinLimits E.floats fragments canvas)
      (hpaint : Paint.build E.floats fragments styled.document = .some displayList)
      (hdraws : (Gfx.rasterize .saturating (db.rasterDb E.parses) displayList width.toNat height.toNat).run = .ok draws)
      (hpixmap : pixmap = draws.foldl (Gfx.Draw.exec E.raster) (.white width.toNat height.toNat))
      (hdrawn : Gfx.Canvas width height pixmap) : Renders E db bytes base width height (.ok { pixmap, warnings })

/-- Painting a styled document. -/
theorem paintDocument_cases (hE : E.Lawful) (hdb : Fonts.FontDb.bundled E.register E.ahem E.notoSans = .ok db)
    (hw0 : width ≠ 0) (hh0 : height ≠ 0) {styled : StyledDocument} {warnings : List String}
    (hstyled : E.Styles bytes base width height styled warnings) :
    (∃ e, E.paintDocument styled db width height = .some (.error e) ∧ Renders E db bytes base width height (.error e)) ∨
      ∃ pixmap, E.paintDocument styled db width height = .some (.ok pixmap) ∧
        Renders E db bytes base width height (.ok { pixmap, warnings }) := by
  rcases Block.layout_cases E.floats (Fonts.textShaper E.textFloats db E.parley) styled (viewportOf width height) with
    ⟨e, hlayout, items, style, available, hfails⟩ | ⟨fragments, F, hlayout, hviewport, ho, htext⟩
  · -- the shaper failed, on a run of a font that is not bundled
    left
    rcases Fonts.layoutInline_cases E.textFloats db.shaperFaces E.parley items style available with
      ⟨boxes, hboxes, -⟩ | ⟨herror, run, hrun, hfont⟩
    · have := hfails.symm.trans hboxes
      cases this
    · obtain rfl := Except.error.inj (hfails.symm.trans herror)
      refine ⟨_, ?_, .unbundledFont hstyled hlayout hrun hfont⟩
      rw [paintDocument, hlayout, Part.bind_eq_bind, Part.bind_some]
  · obtain ⟨displayList, hpaint, hitems⟩ := Paint.text_of_build (Γ := E.floats) ho
      (hviewport ▸ widenable_viewportOf width height) styled.document
    have hresolves : Gfx.Resolves (db.rasterDb E.parses) displayList.items := by
      refine resolves_build hE hdb ?_
      intro run hrun
      obtain ⟨id, f, runs, hf, hk, hmem⟩ := hitems run hrun
      exact htext id f runs hf hk run hmem
    have hpaintDocument := paintDocument_eq hlayout hpaint
    have hw0' : width.toNat ≠ 0 := fun h => hw0 (UInt32.toNat_inj.1 h)
    have hh0' : height.toNat ≠ 0 := fun h => hh0 (UInt32.toNat_inj.1 h)
    rcases Gfx.rasterizeWithStats_cases hresolves E.raster width.toNat height.toNat with
      ⟨hsize, hraster⟩ | ⟨hsize, hvalid⟩
    · left
      refine ⟨_, by rw [hpaintDocument, hraster], .tooLarge hstyled hlayout ?_⟩
      omega
    · have hw : width.toNat ≤ Gfx.maxDimension := by omega
      have hh : height.toNat ≤ Gfx.maxDimension := by omega
      have hdisplayable : Paint.Displayable fragments.viewport := hviewport ▸ displayable_viewportOf hw0 hh0 hw hh
      have hbounds : Paint.viewportBounds fragments = Gfx.canvasBounds width.toNat height.toNat := by
        rw [Paint.viewportBounds, hviewport, viewportOf_eq hw hh]
      obtain ⟨canvas, displayList', hcanvas, hpaint', hiff⟩ := Paint.validate_build (Γ := E.floats) ho hdisplayable styled.document
      obtain rfl := Part.some_injective (hpaint.symm.trans hpaint')
      rw [hbounds] at hiff
      rcases hvalid with ⟨e, he, hraster⟩ | ⟨hok, draws, stats, hdraws, hraster⟩
      · left
        refine ⟨_, by rw [hpaintDocument, hraster], .invalid hstyled hlayout ⟨hw, hh⟩ hcanvas ?_ hpaint he⟩
        intro hlimits
        rw [hiff.2 hlimits] at he
        cases he
      · right
        refine ⟨_, by rw [hpaintDocument, hraster],
          .painted hstyled hlayout hcanvas (hiff.1 hok) hpaint hdraws rfl ?_⟩
        exact (Gfx.Canvas.white width height).foldl_exec hE.premultiplies hE.canvas draws

/-- A styled document is rendered by painting it. -/
theorem Styles.renderBytes_eq {styled : StyledDocument} {warnings : List String}
    (h : E.Styles bytes base width height styled warnings) (hdb : Fonts.FontDb.bundled E.register E.ahem E.notoSans = .ok db) :
    E.renderBytes bytes base width height =
      (E.paintDocument styled db width height).bind fun r => .some (r.map fun pixmap => { pixmap, warnings }) := by
  obtain ⟨document, isTree, engine, sheetWarnings, hparse, hcollect, rfl, rfl⟩ := h
  rw [renderBytes, hparse, Part.bind_eq_bind, Part.bind_some]
  dsimp only
  rw [hcollect]
  dsimp only
  rw [hdb]
  show Part.bind _ _ = Part.bind _ _
  congr 1
  funext r
  cases r <;> rfl

/-- Rendering returns, in one of the five ways. -/
theorem exists_renders (hE : E.Lawful) (hdb : Fonts.FontDb.bundled E.register E.ahem E.notoSans = .ok db) (bytes : Bytes) (base : υ)
    (width height : UInt32) : ∃ r, E.renderBytes bytes base width height = .some r ∧ Renders E db bytes base width height r := by
  obtain ⟨document, isTree, hparse, hurl⟩ := parseTree_eq (E.urls.asStr base) (E.treeBuilder (E.text bytes))
  rcases collectSheets_cases hE isTree hurl width height with ⟨hsize, hcollect⟩ | ⟨⟨hw0, hh0⟩, engine, warnings, hcollect⟩
  · refine ⟨_, ?_, .noDevice hsize⟩
    rw [renderBytes, parseDocument, hparse, Part.bind_eq_bind, Part.bind_some]
    dsimp only
    rw [hcollect]
  · have hstyled : E.Styles bytes base width height { document, isTree, computed := E.cascade engine document }
        (warnings.map formatWarning) := ⟨document, isTree, engine, warnings, hparse, hcollect, rfl, rfl⟩
    rcases paintDocument_cases hE hdb hw0 hh0 hstyled with ⟨e, hpaint, hrenders⟩ | ⟨pixmap, hpaint, hrenders⟩
    · exact ⟨_, by rw [hstyled.renderBytes_eq hdb, hpaint, Part.bind_some]; rfl, hrenders⟩
    · exact ⟨_, by rw [hstyled.renderBytes_eq hdb, hpaint, Part.bind_some]; rfl, hrenders⟩

/-- Rendering a file returns. -/
theorem exists_renderFile (hE : E.Lawful) (path : ρ) (width height : UInt32) : ∃ r, E.renderFile path width height = .some r := by
  unfold renderFile
  cases E.files.canonicalize path with
  | error e => exact ⟨_, rfl⟩
  | ok canonical =>
    dsimp only
    cases Net.Url.fromFilePath E.urls canonical with
    | error e => exact ⟨_, rfl⟩
    | ok base =>
      dsimp only
      cases Net.loadFile E.urls E.files base with
      | error e => exact ⟨_, rfl⟩
      | ok bytes =>
        obtain ⟨db, hdb, -⟩ := hE.fonts
        obtain ⟨r, hr, -⟩ := exists_renders hE hdb bytes base width height
        exact ⟨r, hr⟩

/-- A rendered file is a canvas of the size that was asked for. -/
theorem canvas_of_renderFile (hE : E.Lawful) {path : ρ} {output : RenderOutput}
    (h : E.renderFile path width height = .some (.ok output)) : Gfx.Canvas width height output.pixmap := by
  unfold renderFile at h
  cases hcanonical : E.files.canonicalize path with
  | error e =>
    rw [hcanonical] at h
    cases Part.some_injective h
  | ok canonical =>
    rw [hcanonical] at h
    dsimp only at h
    cases hbase : Net.Url.fromFilePath E.urls canonical with
    | error e =>
      rw [hbase] at h
      cases Part.some_injective h
    | ok base =>
      rw [hbase] at h
      dsimp only at h
      cases hbytes : Net.loadFile E.urls E.files base with
      | error e =>
        rw [hbytes] at h
        cases Part.some_injective h
      | ok bytes =>
        rw [hbytes] at h
        obtain ⟨db, hdb, -⟩ := hE.fonts
        obtain ⟨r, hr, hrenders⟩ := exists_renders hE hdb bytes base width height
        obtain rfl := Part.some_injective (hr.symm.trans h)
        cases hrenders with
        | painted _ _ _ _ _ _ _ hdrawn => exact hdrawn

/-- With its font database, an outcome is what rendering returns. -/
theorem Renders.renderBytes_eq (hE : E.Lawful) (hdb : Fonts.FontDb.bundled E.register E.ahem E.notoSans = .ok db)
    {r : Except ShellError RenderOutput} (h : Renders E db bytes base width height r) :
    E.renderBytes bytes base width height = .some r := by
  cases h with
  | noDevice h =>
    obtain ⟨document, isTree, hparse, hurl⟩ := parseTree_eq (E.urls.asStr base) (E.treeBuilder (E.text bytes))
    rcases collectSheets_cases hE isTree hurl width height with ⟨-, hcollect⟩ | ⟨hsize, -⟩
    · rw [renderBytes, parseDocument, hparse, Part.bind_eq_bind, Part.bind_some]
      dsimp only
      rw [hcollect]
    · tauto
  | unbundledFont hstyled hlayout hrun hfont =>
    rw [hstyled.renderBytes_eq hdb, paintDocument, hlayout, Part.bind_eq_bind, Part.bind_some]
    exact Part.bind_some _ _
  | tooLarge hstyled hlayout h =>
    obtain ⟨displayList, hpaint⟩ := exists_build hlayout
    have hraster : Gfx.rasterizeWithStats E.raster (db.rasterDb E.parses) displayList width.toNat height.toNat =
        .error (.pixmapTooLarge width.toNat height.toNat) := if_pos (by tauto)
    rw [hstyled.renderBytes_eq hdb, paintDocument_eq hlayout hpaint, hraster]
    exact Part.bind_some _ _
  | @invalid _ _ _ _ displayList e hstyled hlayout hsize hcanvas hlimits hpaint hvalid =>
    have hnonzero : ¬(width.toNat = 0 ∨ height.toNat = 0) := by
      have := hstyled.viewport hE
      rwa [← UInt32.toNat_inj, ← UInt32.toNat_inj] at this
    have hraster : Gfx.rasterizeWithStats E.raster (db.rasterDb E.parses) displayList width.toNat height.toNat =
        .error (.invalid e) := by
      rw [Gfx.rasterizeWithStats, if_neg (by omega), hvalid]
    rw [hstyled.renderBytes_eq hdb, paintDocument_eq hlayout hpaint, hraster]
    exact Part.bind_some _ _
  | @painted _ _ _ _ displayList _ _ hstyled hlayout hcanvas hlimits hpaint hdraws hpixmap hdrawn =>
    have heq := Gfx.rasterizeWithStats_eq E.raster (db.rasterDb E.parses) displayList width.toNat height.toNat
    rw [hdraws] at heq
    rw [hstyled.renderBytes_eq hdb, paintDocument_eq hlayout hpaint]
    cases hraster : Gfx.rasterizeWithStats E.raster (db.rasterDb E.parses) displayList width.toNat height.toNat with
    | error e =>
      rw [hraster] at heq
      cases heq
    | ok drawn =>
      rw [hraster] at heq
      obtain rfl := hpixmap.trans (Except.ok.inj heq).symm
      exact Part.bind_some _ _

/-- Rendering returns whatever the bytes, and it returns exactly the five outcomes. -/
theorem renderBytes_exact (hE : E.Lawful) (bytes : Bytes) (base : υ) (width height : UInt32) :
    ∃ db, Fonts.FontDb.bundled E.register E.ahem E.notoSans = .ok db ∧
      (∃ r, E.renderBytes bytes base width height = .some r) ∧
      ∀ r, E.renderBytes bytes base width height = .some r ↔ Renders E db bytes base width height r := by
  obtain ⟨db, hdb, -⟩ := hE.fonts
  obtain ⟨r, hr, hrenders⟩ := exists_renders hE hdb bytes base width height
  refine ⟨db, hdb, ⟨r, hr⟩, fun r' => ⟨?_, Renders.renderBytes_eq hE hdb⟩⟩
  intro hr'
  obtain rfl := Part.some_injective (hr.symm.trans hr')
  exact hrenders

/-! ## A page -/

/-- A page with one letter. -/
def letterPage : Bytes := ascii "<div>x"

/-- What html5ever asks of the sink for that page. -/
def letterPageCalls : List DomSink.TreeCall :=
  let element (index parent : Nat) (name : String) : List DomSink.TreeCall :=
    [.build (.createElement ⟨none, "http://www.w3.org/1999/xhtml", name⟩ [] ⟨false⟩),
      .build (.append (.fromIndex parent) (.appendNode (.fromIndex index)))]
  [.parseError "Unexpected token", .setQuirksMode .quirks] ++ element 1 0 "html" ++ element 2 1 "head" ++ element 3 1 "body" ++
    element 4 3 "div" ++ [.build (.append (.fromIndex 4) (.appendText ['x']))]

/-- The style of the box around the letter, which is wider than it is. -/
def boxStyle : LayoutStyle :=
  { LayoutStyle.initial .sample with
    display := .block
    width := .px (.fromPx 2)
    borderWidth := .uniform (.fromPx 1)
    borderColor := .uniform ⟨0, 0, 255, 255⟩
    borderSolid := .uniform true
    overflow := .hidden
    background := ⟨255, 255, 0, 255⟩
    fontFamily := ["Ahem"]
    fontSize := .fromPx 3
    lineHeight := .fromPx 4 }

/-- The style of the elements around that box. -/
def pageStyle (background : Rgba8) : LayoutStyle := { LayoutStyle.initial .sample with display := .block, background }

/-- The computed styles of the page: `head` is not displayed, and the background of `body` is that of the canvas. -/
def letterStyle (id : NodeId) : Option LayoutStyle :=
  match id.index with
  | 1 => some (pageStyle .transparent)
  | 2 => some { LayoutStyle.initial .sample with display := .none }
  | 3 => some (pageStyle ⟨0, 255, 255, 255⟩)
  | 4 => some boxStyle
  | _ => none

/-- Three, as an `f32`. -/
def three : F32 := ⟨0x40400000⟩

/-- Engines for that page: every path is a link to it, both fonts register and parse, and the letters of Ahem are squares. -/
def sample : Engines String String (Fin 5) String where
  urls :=
    { parse := .ok
      parseWithBase := fun relative _ => .ok relative
      fromFilePath := fun path => some ("file://" ++ path)
      scheme := fun _ => "file"
      asStr := id
      hostStr := fun _ => none
      toFilePath := fun _ => some "/letter.html"
      display := id }
  files :=
    { metadata := fun _ => .ok letterPage.length
      openFile := fun _ => .ok fun place => .ok letterPage[place]?
      canonicalize := fun _ => .ok "/letter.html" }
  encodings := Encoding.sampleTable
  decoders := Encoding.sampleDecoders
  treeBuilder _ := letterPageCalls
  uaCss := ("head { display: none } html, body, div { display: block } body { background: aqua } " ++
    "div { background: yellow; border: 1px solid blue; font: 3px/4px Ahem; overflow: hidden; width: 2px }").toList
  cascade _ _ := letterStyle
  register := Fonts.twoFiles
  ahem := "Ahem"
  notoSans := "Noto Sans"
  parses _ index := index = 0
  parley _ _ _ _ _ :=
    [{ runs := [⟨⟨"Ahem", 0⟩, three, [⟨0, three, .black, [⟨91, .zero, .zero, three⟩]⟩]⟩]
       offset := .zero
       inlineMinCoord := .zero
       baseline := three
       blockMinCoord := .zero }]
  floats := .sample
  textFloats :=
    -- one of two summands is always zero here, and nothing is negative
    { add := fun a b => if a = .zero then b else a
      sub := fun a _ => a
      le := fun a b => a.bits ≤ b.bits
      fromPx := .fromPxF32 }
  raster := .squares

/-- The sample keeps the laws. -/
theorem lawful_sample : Lawful sample where
  parse_asStr _ := rfl
  ua := ⟨_, rfl⟩
  fonts := ⟨Fonts.twoFaces, by decide, by decide⟩
  premultiplies := Gfx.premultiplies_sample
  canvas h _ _ _ _ color := h.fillRect .sample fun hpixel => Gfx.composite_opaque Gfx.premultiplies_sample hpixel color 255

/-- The sample page is parsed. -/
theorem dom_letterPage : (parseTree "file:///letter.html" letterPageCalls).Dom := by
  obtain ⟨document, isTree, hparse, -⟩ := parseTree_eq "file:///letter.html" letterPageCalls
  rw [hparse]
  trivial

/-- The page, parsed and styled. -/
def letterStyled : StyledDocument where
  document := ((parseTree "file:///letter.html" letterPageCalls).get dom_letterPage).val
  isTree := ((parseTree "file:///letter.html" letterPageCalls).get dom_letterPage).property
  computed := letterStyle

/-- The sample page is styled. -/
theorem styles_letterPage {width height : UInt32} (hsize : ¬(width = 0 ∨ height = 0)) :
    ∃ warnings, sample.Styles letterPage "file:///letter.html" width height letterStyled warnings := by
  have hparse : parseTree "file:///letter.html" letterPageCalls = .some ⟨letterStyled.document, letterStyled.isTree⟩ :=
    Part.eq_some_iff.2 (Part.get_mem dom_letterPage)
  obtain ⟨document, isTree, hparse', hurl⟩ := parseTree_eq "file:///letter.html" letterPageCalls
  obtain rfl := congrArg Subtype.val (Part.some_injective (hparse.symm.trans hparse'))
  rcases collectSheets_cases lawful_sample isTree hurl width height with ⟨hzero, -⟩ | ⟨-, engine, warnings, hcollect⟩
  · exact absurd hzero hsize
  · exact ⟨_, _, letterStyled.isTree, engine, warnings, hparse, hcollect, rfl, rfl⟩

/-- The boxes of the page. -/
def letterBoxes : BoxTree where
  boxes :=
    [⟨some (.fromIndex 5), .inlineText (.fromIndex 5), .inheritedTextStyle .sample boxStyle, []⟩,
      ⟨some (.fromIndex 4), .block, boxStyle, [⟨0⟩]⟩,
      ⟨some (.fromIndex 3), .block, pageStyle ⟨0, 255, 255, 255⟩, [⟨1⟩]⟩, ⟨some (.fromIndex 1), .block, pageStyle .transparent, [⟨2⟩]⟩]
  root := ⟨3⟩

/-- The boxes of the sample page. -/
theorem build_letterPage : BoxGen.build .sample letterStyled = .some letterBoxes :=
  BoxGen.build_of_run 20 (.fromIndex 1) (by decide +kernel) (by decide +kernel) (by decide +kernel)

/-- Its fragments in that viewport. -/
def letterFragments (viewport : Size) : FragmentTree :=
  let text : Rect := ⟨⟨.fromPx 1, .fromPx 1⟩, ⟨.fromPx 3, .fromPx 4⟩⟩
  let line : Rect := ⟨⟨.fromPx 1, .fromPx 1⟩, ⟨.fromPx 2, .fromPx 4⟩⟩
  let box : Rect := ⟨⟨.zero, .zero⟩, ⟨.fromPx 4, .fromPx 6⟩⟩
  let page : Rect := ⟨⟨.zero, .zero⟩, ⟨viewport.w, .fromPx 6⟩⟩
  { fragments :=
      [⟨some (.fromIndex 5), .text [⟨⟨0⟩, .fromPx 3, ⟨.fromPx 1, .fromPx 4⟩, [⟨91, .zero, .zero, .fromPx 3⟩], .black⟩],
          text, text, text, ⟨0⟩, []⟩,
        ⟨none, .line, line, line, line, ⟨1⟩, [⟨0⟩]⟩, ⟨some (.fromIndex 4), .block, box, line, line, ⟨2⟩, [⟨1⟩]⟩,
        ⟨some (.fromIndex 3), .block, page, page, page, ⟨3⟩, [⟨2⟩]⟩, ⟨some (.fromIndex 1), .block, page, page, page, ⟨4⟩, [⟨3⟩]⟩]
    styles := [.inheritedTextStyle .sample boxStyle, boxStyle, boxStyle, pageStyle ⟨0, 255, 255, 255⟩, pageStyle .transparent]
    root := ⟨4⟩
    viewport }

/-- The layout of the sample page. -/
theorem layout_letterPage {viewport : Size} (h : viewport ∈ [viewportOf 8 8, viewportOf 800 600]) :
    Block.layout .sample (Fonts.textShaper sample.textFloats Fonts.twoFaces sample.parley) letterStyled viewport =
      .some (.ok (letterFragments viewport)) := by
  refine Block.layout_of_run build_letterPage ?_
  unfold Block.run
  simp only [show letterBoxes.get letterBoxes.root = some ⟨some (.fromIndex 1), .block, pageStyle .transparent, [⟨2⟩]⟩ from rfl,
    show Block.isBlockContainer letterBoxes letterBoxes.root = true by decide, if_true]
  rcases List.mem_pair.1 h with rfl | rfl
  · exact While.loop_of_run (n := 8) (by decide +kernel)
  · exact While.loop_of_run (n := 8) (by decide +kernel)

/-- They are in document order along one line of descent. -/
def letterForest : Forest FragmentId :=
  .cons ⟨4⟩ (.cons ⟨3⟩ (.cons ⟨2⟩ (.cons ⟨1⟩ (.cons ⟨0⟩ .nil .nil) .nil) .nil) .nil) .nil

/-- What is painted: the canvas, the box, and the letter inside of the box. -/
def letterList (viewport : Size) : DisplayList where
  items :=
    [.rect ⟨.zero, viewport⟩ ⟨0, 255, 255, 255⟩, .rect ⟨.zero, ⟨.fromPx 4, .fromPx 6⟩⟩ ⟨255, 255, 0, 255⟩,
      .border ⟨.zero, ⟨.fromPx 4, .fromPx 6⟩⟩ (.uniform (.fromPx 1)) (.uniform ⟨0, 0, 255, 255⟩),
      .pushClip ⟨⟨.fromPx 1, .fromPx 1⟩, ⟨.fromPx 2, .fromPx 4⟩⟩, .pushClip ⟨⟨.fromPx 1, .fromPx 1⟩, ⟨.fromPx 2, .fromPx 4⟩⟩,
      .text ⟨⟨0⟩, .fromPx 3, ⟨.fromPx 1, .fromPx 4⟩, [⟨91, .zero, .zero, .fromPx 3⟩], .black⟩, .popClip, .popClip]
  bounds := ⟨.zero, viewport⟩

/-- The list of the sample page. -/
theorem build_letterFragments {viewport : Size} (h : viewport ∈ [viewportOf 8 8, viewportOf 800 600]) :
    Paint.build .sample (letterFragments viewport) letterStyled.document = .some (letterList viewport) := by
  have hfollows : letterForest.Follows (letterFragments viewport).kids :=
    ⟨rfl, ⟨rfl, ⟨rfl, ⟨rfl, ⟨rfl, trivial, trivial⟩, trivial⟩, trivial⟩, trivial⟩, trivial⟩
  have hfound : ∀ id ∈ letterForest.preorder, ∃ fragment, (letterFragments viewport).get id = some fragment := by
    simp [letterForest, Forest.preorder, letterFragments, FragmentTree.get]
  have hlist : Paint.paintTree .sample (letterFragments viewport) letterStyled.document letterForest = letterList viewport := by
    rcases List.mem_pair.1 h with rfl | rfl
    · decide +kernel
    · decide +kernel
  rw [Paint.build_eq_of_forest letterStyled.document rfl hfollows hfound (Nat.le_refl 5) (.inl ?_), hlist]
  rcases List.mem_pair.1 h with rfl | rfl <;> exact widenable_viewportOf _ _

/-- The picture of the page: around the letter the box, whose border is over what the letter has too much, and the canvas. -/
def letterPicture : Gfx.Pixmap where
  width := 8
  height := 8
  pixels :=
    let blue := ⟨0, 0, 255, 255⟩
    let row (inside : Gfx.PremultipliedColorU8) := [blue, inside, inside, blue] ++ List.replicate 4 ⟨0, 255, 255, 255⟩
    row blue ++ row ⟨255, 255, 0, 255⟩ ++ row ⟨0, 0, 0, 255⟩ ++ row ⟨0, 0, 0, 255⟩ ++ row ⟨0, 0, 0, 255⟩ ++ row blue ++
      List.replicate 16 ⟨0, 255, 255, 255⟩
  size := by decide

/-- The picture of the sample page. -/
theorem rasterize_letterList : ∃ stats,
    Gfx.rasterizeWithStats sample.raster (Fonts.twoFaces.rasterDb sample.parses) (letterList (viewportOf 8 8)) (8 : UInt32).toNat
      (8 : UInt32).toNat = .ok (letterPicture, stats) :=
  ⟨⟨1, 0⟩, by decide +kernel⟩

/-- The fonts of the sample. -/
theorem bundled_sample : Fonts.FontDb.bundled sample.register sample.ahem sample.notoSans = .ok Fonts.twoFaces := by decide

/-- Rendering the page is rasterizing its list. -/
theorem renderBytes_of_letterList {width height : UInt32} (h : viewportOf width height ∈ [viewportOf 8 8, viewportOf 800 600])
    (hsize : ¬(width = 0 ∨ height = 0)) {pixmap : Gfx.Pixmap} {stats : Gfx.RasterStats}
    (hraster : Gfx.rasterizeWithStats sample.raster (Fonts.twoFaces.rasterDb sample.parses) (letterList (viewportOf width height))
      width.toNat height.toNat = .ok (pixmap, stats)) :
    ∃ warnings, sample.renderBytes letterPage "file:///letter.html" width height = .some (.ok { pixmap, warnings }) := by
  obtain ⟨warnings, hstyled⟩ := styles_letterPage hsize
  have hlayout : Block.layout sample.floats (Fonts.textShaper sample.textFloats Fonts.twoFaces sample.parley) letterStyled
      (viewportOf width height) = .some (.ok (letterFragments (viewportOf width height))) := layout_letterPage h
  have hpaint : Paint.build sample.floats (letterFragments (viewportOf width height)) letterStyled.document =
      .some (letterList (viewportOf width height)) := build_letterFragments h
  have hpainted : sample.paintDocument letterStyled Fonts.twoFaces width height = .some (.ok pixmap) := by
    rw [paintDocument_eq hlayout hpaint, hraster]
  refine ⟨warnings, ?_⟩
  rw [hstyled.renderBytes_eq bundled_sample, hpainted]
  exact Part.bind_some _ _

/-- The sample page renders to its picture. -/
theorem renderBytes_letterPage :
    ∃ warnings, sample.renderBytes letterPage "file:///letter.html" 8 8 = .some (.ok { pixmap := letterPicture, warnings }) := by
  obtain ⟨stats, hraster⟩ := rasterize_letterList
  exact renderBytes_of_letterList List.mem_cons_self (by decide) hraster

/-- That page has the fifth outcome, with that picture. -/
theorem renderBytes_exact_letterPage : ∃ db warnings, Fonts.FontDb.bundled sample.register sample.ahem sample.notoSans = .ok db ∧
    sample.renderBytes letterPage "file:///letter.html" 8 8 = .some (.ok { pixmap := letterPicture, warnings }) ∧
    Renders sample db letterPage "file:///letter.html" 8 8 (.ok { pixmap := letterPicture, warnings }) := by
  obtain ⟨warnings, hrender⟩ := renderBytes_letterPage
  obtain ⟨db, hdb, -, hiff⟩ := renderBytes_exact lawful_sample letterPage "file:///letter.html" 8 8
  exact ⟨db, warnings, hdb, hrender, (hiff _).1 hrender⟩

end Engines

end ChromeLight
