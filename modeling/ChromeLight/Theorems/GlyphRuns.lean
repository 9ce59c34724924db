import ChromeLight.Theorems.Blit

/-!
# Painting runs through the glyph cache

The key of a glyph determines its mask, so that a cached mask is the one that would be rasterized: painting runs through the
cache gives the pixels of rasterizing every glyph for itself (`paintRuns_afresh`), and the pass over a display list those of its
calls (`rasterizeWithStats_eq`). What a run does to a pixel moves with the run and its clip by whole pixels
(`paintRun_translate`).
-/

namespace ChromeLight

namespace Gfx

variable {Γ : Backend} {cache : GlyphCache} {key : GlyphKey} {bitmap : GlyphBitmap} {font : FontKey} {glyph : UInt16}

/-! ## The cache -/

/-- The mask of a glyph if it is rasterized for itself. -/
def rasterized (Γ : Backend) (font : FontKey) (size : Au) (glyph : UInt16) : GlyphBitmap :=
  (Γ.render font (Γ.toPx size) glyph).getD .default

namespace GlyphCache

/-- What is stored under the key of a glyph is the mask of this glyph. -/
def Sound (Γ : Backend) (cache : GlyphCache) : Prop :=
  ∀ font glyph size bitmap, Au.zero < size → cache.get (font, glyph, sizeKey size) = some bitmap →
    bitmap = rasterized Γ font size glyph

/-- The byte counter is the size of the stored masks, and within the budget. -/
structure Counts (cache : GlyphCache) : Prop where
  bytes : cache.bytes = (cache.map.entries.map fun entry => entry.2.byteSize).sum
  bounded : cache.bytes ≤ maxCacheBytes

/-- An empty cache is sound. -/
theorem Sound.default (Γ : Backend) : Sound Γ .default := by
  intro font glyph size bitmap _ h
  cases h

/-- An empty cache counts its bytes. -/
theorem Counts.default : Counts .default := ⟨rfl, Nat.zero_le _⟩

/-- A size is determined by its key. -/
theorem sizeKey_inj {size size' : Au} (h0 : Au.zero < size) (h0' : Au.zero < size') (h : sizeKey size = sizeKey size') :
    size = size' := by
  rw [Au.lt_iff, Au.units_zero] at h0 h0'
  unfold sizeKey at h
  rw [if_pos (by omega), if_pos (by omega)] at h
  exact Au.ext_units (by omega)

/-- Inserting gives the mask back. -/
theorem insert_fst (cache : GlyphCache) (key : GlyphKey) (bitmap : GlyphBitmap) : (cache.insert key bitmap).1 = bitmap := by
  unfold GlyphCache.insert
  simp only
  split <;> rfl

/-- A mask is stored under its key, or refused. -/
theorem insert_cases (cache : GlyphCache) (key : GlyphKey) (bitmap : GlyphBitmap) :
    (cache.insert key bitmap).2 = cache ∨ (cache.bytes + bitmap.byteSize ≤ maxCacheBytes ∧
      (cache.insert key bitmap).2 = ⟨cache.map.insert key bitmap, cache.bytes + bitmap.byteSize⟩) := by
  unfold GlyphCache.insert
  by_cases hfits : min (cache.bytes + bitmap.byteSize) usizeMax ≤ maxCacheBytes
  · have hmin : min (cache.bytes + bitmap.byteSize) usizeMax = cache.bytes + bitmap.byteSize := by
      unfold maxCacheBytes usizeMax at *
      omega
    simp only [if_pos hfits]
    rw [hmin] at hfits ⊢
    exact .inr ⟨hfits, rfl⟩
  · refine .inl ?_
    simp only [if_neg hfits]

/-- Inserting the mask of a glyph keeps the cache sound. -/
theorem Sound.insert (h : Sound Γ cache) {size : Au} (h0 : Au.zero < size) (font : FontKey) (glyph : UInt16) :
    Sound Γ (cache.insert (font, glyph, sizeKey size) (rasterized Γ font size glyph)).2 := by
  rcases insert_cases cache (font, glyph, sizeKey size) (rasterized Γ font size glyph) with hsame | ⟨-, hstored⟩
  · rw [hsame]
    exact h
  · rw [hstored]
    intro font' glyph' size' bitmap' h0' hget
    by_cases hkey : (font', glyph', sizeKey size') = (font, glyph, sizeKey size)
    · simp only [Prod.mk.injEq] at hkey
      obtain ⟨rfl, rfl, hsize⟩ := hkey
      obtain rfl := sizeKey_inj h0' h0 hsize
      exact (Option.some.inj ((AList.lookup_insert cache.map).symm.trans hget)).symm
    · exact h font' glyph' size' bitmap' h0' ((AList.lookup_insert_ne hkey).symm.trans hget)

/-- Storing a mask under a key that holds none keeps the count. -/
theorem Counts.insert (h : Counts cache) (hnew : cache.get key = none) (bitmap : GlyphBitmap) :
    Counts (cache.insert key bitmap).2 := by
  rcases insert_cases cache key bitmap with hsame | ⟨hfits, hstored⟩
  · rw [hsame]
    exact h
  · rw [hstored]
    refine ⟨?_, hfits⟩
    have hkey : key ∉ cache.map := AList.lookup_eq_none.1 hnew
    rw [AList.entries_insert_of_notMem hkey, List.map_cons, List.sum_cons, ← h.bytes, Nat.add_comm]

end GlyphCache

/-! ## One glyph -/

variable {run : GlyphRun} {s : Painting}

/-- The mask that is painted is the one that would be rasterized. -/
theorem glyphBitmap_spec (hs : s.cache.Sound Γ) (h0 : Au.zero < run.size) (g : Glyph) :
    (glyphBitmap Γ run s g).1 = rasterized Γ run.font run.size g.id ∧
      (glyphBitmap Γ run s g).2.pixmap = s.pixmap ∧ (glyphBitmap Γ run s g).2.cache.Sound Γ := by
  simp only [glyphBitmap]
  split
  · rename_i hit hget
    exact ⟨hs _ _ _ _ h0 hget, rfl, hs⟩
  · exact ⟨GlyphCache.insert_fst _ _ _, rfl, hs.insert h0 run.font g.id⟩

/-- Looking up a mask keeps the counter right. -/
theorem glyphBitmap_counts (h : s.cache.Counts) (run : GlyphRun) (g : Glyph) : (glyphBitmap Γ run s g).2.cache.Counts := by
  simp only [glyphBitmap]
  split
  · exact h
  · rename_i hget
    exact h.insert hget _

/-- The call that paints a glyph of a run. -/
def glyphDraw (run : GlyphRun) (pixels : PixelClip) (g : Glyph) : Draw :=
  .blit run.font run.size g.id (roundPx (run.origin.x.saturatingAdd g.x)) (roundPx (run.origin.y.saturatingAdd g.y)) run.color
    pixels

/-- A glyph is painted as without the cache, which stays sound. -/
theorem paintGlyph_spec (hs : s.cache.Sound Γ) (h0 : Au.zero < run.size) (pixels : PixelClip) (g : Glyph) :
    (paintGlyph Γ run pixels s g).pixmap = Draw.exec Γ s.pixmap (glyphDraw run pixels g) ∧
      (paintGlyph Γ run pixels s g).cache.Sound Γ := by
  obtain ⟨hmask, hpixmap, hsound⟩ := glyphBitmap_spec hs h0 g
  refine ⟨?_, hsound⟩
  show blit Γ (glyphBitmap Γ run s g).2.pixmap (glyphBitmap Γ run s g).1 _ _ _ _ = _
  rw [hmask, hpixmap]
  rfl

/-- Glyphs are painted as without the cache, which stays sound. -/
theorem foldl_paintGlyph_spec (h0 : Au.zero < run.size) (pixels : PixelClip) (glyphs : List Glyph) (s : Painting)
    (hs : s.cache.Sound Γ) :
    (glyphs.foldl (paintGlyph Γ run pixels) s).pixmap =
        (glyphs.map (glyphDraw run pixels)).foldl (Draw.exec Γ) s.pixmap ∧
      (glyphs.foldl (paintGlyph Γ run pixels) s).cache.Sound Γ := by
  induction glyphs generalizing s with
  | nil => exact ⟨rfl, hs⟩
  | cons g glyphs ih =>
    obtain ⟨hpixmap, hsound⟩ := paintGlyph_spec hs h0 pixels g
    obtain ⟨hrest, hrestSound⟩ := ih _ hsound
    refine ⟨hrest.trans ?_, hrestSound⟩
    rw [hpixmap]
    rfl

/-- Painting glyphs keeps the counter right. -/
theorem foldl_paintGlyph_counts (run : GlyphRun) (pixels : PixelClip) (glyphs : List Glyph) (s : Painting)
    (hs : s.cache.Counts) : (glyphs.foldl (paintGlyph Γ run pixels) s).cache.Counts := by
  induction glyphs generalizing s with
  | nil => exact hs
  | cons g glyphs ih => exact ih _ (glyphBitmap_counts hs run g)

/-- What is drawn for glyphs, without the checks. -/
theorem paintGlyphs_saturating (run : GlyphRun) (pixels : PixelClip) (glyphs : List Glyph) :
    (paintGlyphs .saturating run pixels glyphs).run = glyphs.map (glyphDraw run pixels) := by
  induction glyphs with
  | nil => rfl
  | cons g glyphs ih =>
    rw [List.map_cons, ← ih]
    rfl

/-! ## Runs -/

variable {fonts : FontDb} {clip : Rect}

/-- Paint a run with every glyph rasterized for itself. -/
def paintAfresh (Γ : Backend) (fonts : FontDb) (run : GlyphRun) (clip : Rect) (p : Pixmap) : Except GfxError Pixmap :=
  (paintRun .saturating fonts run clip).run.map fun draws => draws.foldl (Draw.exec Γ) p

/-- The pixmap after a run painted afresh: a run that fails changes nothing. -/
def afterAfresh (Γ : Backend) (p : Pixmap) (call : FontDb × GlyphRun × Rect) : Pixmap :=
  match paintAfresh Γ call.1 call.2.1 call.2.2 p with
  | .error _ => p
  | .ok p => p

/-- What becomes of a run: it fails, it paints nothing, or it paints its glyphs inside a pixel clip. -/
def runPlan (fonts : FontDb) (run : GlyphRun) (clip : Rect) : Except GfxError (Option PixelClip) :=
  match fonts run.font with
  | none => .error (.fontNotBundled run.font)
  | some face =>
    if run.glyphs.isEmpty ∨ run.color.a = 0 then .ok none
    else
      match (pixelClip .saturating clip).run with
      | none => .ok none
      | some pixels =>
        if run.size ≤ .zero ∨ maxGlyphPx < run.size then .ok none
        else if !face.parses then
          .error (.font (face.family ++ " face " ++ toString face.index ++ " did not parse as a font"))
        else .ok (some pixels)

/-- A run that is painted has a size. -/
theorem size_of_runPlan {pixels : PixelClip} (h : runPlan fonts run clip = .ok (some pixels)) : Au.zero < run.size := by
  unfold runPlan at h
  split at h
  · cases h
  split at h
  · cases h
  split at h
  · cases h
  split at h
  · cases h
  · rename_i hsize
    exact not_le.1 fun h0 => hsize (.inl h0)

/-- Painting a run is its plan, and the glyphs of it. -/
theorem paintRun_eq_runPlan (Γ : Backend) (fonts : FontDb) (run : GlyphRun) (clip : Rect) (s : Painting) :
    TextRasterizer.paintRun Γ fonts run clip s =
      (runPlan fonts run clip).map fun plan => plan.elim s fun pixels => run.glyphs.foldl (paintGlyph Γ run pixels) s := by
  unfold TextRasterizer.paintRun runPlan
  rcases fonts run.font with _ | face
  · rfl
  by_cases hskip : run.glyphs.isEmpty ∨ run.color.a = 0
  · simp only [if_pos hskip]
    rfl
  rcases (pixelClip .saturating clip).run with _ | pixels
  · simp only [if_neg hskip]
    rfl
  by_cases hsize : run.size ≤ .zero ∨ maxGlyphPx < run.size
  · simp only [if_neg hskip, if_pos hsize]
    rfl
  by_cases hparses : (!face.parses) = true
  · simp only [if_neg hskip, if_neg hsize, if_pos hparses]
    rfl
  · simp only [if_neg hskip, if_neg hsize, if_neg hparses]
    rfl

/-- What is drawn for a run is its plan, and the glyphs of it. -/
theorem paintRun_saturating_eq_runPlan (fonts : FontDb) (run : GlyphRun) (clip : Rect) :
    (paintRun .saturating fonts run clip).run =
      (runPlan fonts run clip).map fun plan => plan.elim [] fun pixels => run.glyphs.map (glyphDraw run pixels) := by
  unfold paintRun runPlan
  rcases fonts run.font with _ | face
  · rfl
  by_cases hskip : run.glyphs.isEmpty ∨ run.color.a = 0
  · simp only [if_pos hskip]
    rfl
  simp only [if_neg hskip, Id.run_bind]
  rcases (pixelClip .saturating clip).run with _ | pixels
  · rfl
  by_cases hsize : run.size ≤ .zero ∨ maxGlyphPx < run.size
  · simp only [if_pos hsize]
    rfl
  by_cases hparses : (!face.parses) = true
  · simp only [if_neg hsize, if_pos hparses]
    rfl
  · simp only [if_neg hsize, if_neg hparses, Id.run_bind, paintGlyphs_saturating]
    rfl

/-- A run through a sound cache gives what it gives afresh, and leaves the cache sound. -/
theorem paintRun_afresh (hs : s.cache.Sound Γ) (fonts : FontDb) (run : GlyphRun) (clip : Rect) :
    (TextRasterizer.paintRun Γ fonts run clip s).map (fun t => t.pixmap) = paintAfresh Γ fonts run clip s.pixmap ∧
      ∀ t, TextRasterizer.paintRun Γ fonts run clip s = .ok t → t.cache.Sound Γ := by
  rw [paintAfresh, paintRun_eq_runPlan, paintRun_saturating_eq_runPlan]
  rcases hplan : runPlan fonts run clip with e | _ | pixels
  · exact ⟨rfl, fun t ht => by cases ht⟩
  · exact ⟨rfl, fun t ht => Except.ok.inj ht ▸ hs⟩
  · obtain ⟨hpixmap, hsound⟩ := foldl_paintGlyph_spec (size_of_runPlan hplan) pixels run.glyphs s hs
    exact ⟨congrArg Except.ok hpixmap, fun t ht => Except.ok.inj ht ▸ hsound⟩

/-- Painting a run keeps the counter right. -/
theorem paintRun_counts (hs : s.cache.Counts) {t : Painting} (ht : TextRasterizer.paintRun Γ fonts run clip s = .ok t) :
    t.cache.Counts := by
  rw [paintRun_eq_runPlan] at ht
  rcases hplan : runPlan fonts run clip with e | _ | pixels
  · rw [hplan] at ht
    cases ht
  · rw [hplan] at ht
    exact Except.ok.inj ht ▸ hs
  · rw [hplan] at ht
    exact Except.ok.inj ht ▸ foldl_paintGlyph_counts run pixels run.glyphs s hs

/-- A cache that painting runs leads to. -/
inductive Reached (Γ : Backend) : GlyphCache → Prop where
  | new : Reached Γ .default
  | run {fonts : FontDb} {run : GlyphRun} {clip : Rect} {s t : Painting} (h : Reached Γ s.cache)
      (ht : TextRasterizer.paintRun Γ fonts run clip s = .ok t) : Reached Γ t.cache

/-- A cache that was reached is sound. -/
theorem Reached.sound (h : Reached Γ cache) : cache.Sound Γ := by
  induction h with
  | new => exact .default Γ
  | run _ ht ih => exact (paintRun_afresh ih _ _ _).2 _ ht

/-- A cache that was reached counts its bytes. -/
theorem Reached.counts (h : Reached Γ cache) : cache.Counts := by
  induction h with
  | new => exact .default
  | run _ ht ih => exact paintRun_counts ih ht

/-- One more run reaches one more cache. -/
theorem Reached.afterRun (h : Reached Γ s.cache) (call : FontDb × GlyphRun × Rect) :
    Reached Γ (TextRasterizer.afterRun Γ s call).cache := by
  unfold TextRasterizer.afterRun
  split
  · exact h
  · rename_i t ht
    exact .run h ht

/-- After a run the pixmap is as without the cache. -/
theorem afterRun_pixmap (h : Reached Γ s.cache) (call : FontDb × GlyphRun × Rect) :
    (TextRasterizer.afterRun Γ s call).pixmap = afterAfresh Γ s.pixmap call := by
  have hafresh := (paintRun_afresh h.sound call.1 call.2.1 call.2.2).1
  unfold TextRasterizer.afterRun afterAfresh
  rw [← hafresh]
  rcases TextRasterizer.paintRun Γ call.1 call.2.1 call.2.2 s with e | t <;> rfl

/-- After many runs the pixmap is as without the cache. -/
theorem foldl_afterRun (h : Reached Γ s.cache) (calls : List (FontDb × GlyphRun × Rect)) :
    (calls.foldl (TextRasterizer.afterRun Γ) s).pixmap = calls.foldl (afterAfresh Γ) s.pixmap ∧
      Reached Γ (calls.foldl (TextRasterizer.afterRun Γ) s).cache := by
  induction calls generalizing s with
  | nil => exact ⟨rfl, h⟩
  | cons call calls ih =>
    obtain ⟨hpixmap, hreached⟩ := ih (h.afterRun call)
    rw [afterRun_pixmap h call] at hpixmap
    exact ⟨hpixmap, hreached⟩

/-- The cache is invisible in the painting that some runs lead to. -/
structure CacheInvisible (Γ : Backend) (pixmap : Pixmap) (calls : List (FontDb × GlyphRun × Rect)) (s : Painting) : Prop where
  /-- The pixels are those of rasterizing every glyph for itself. -/
  pixels : s.pixmap = calls.foldl (afterAfresh Γ) pixmap
  /-- And so are those of the next run, and whether it fails. -/
  next : ∀ fonts run clip,
    (TextRasterizer.paintRun Γ fonts run clip s).map (fun t => t.pixmap) = paintAfresh Γ fonts run clip s.pixmap
  counts : s.cache.Counts
  /-- In the middle of a run as well. -/
  within : ∀ (run : GlyphRun) (clip : PixelClip) (done : List Glyph), (done.foldl (paintGlyph Γ run clip) s).cache.Counts

/-- Whatever is painted through one cache, the cache never shows in the pixels, and its byte counter is right. -/
theorem paintRuns_afresh (Γ : Backend) (pixmap : Pixmap) (stats : RasterStats) (calls : List (FontDb × GlyphRun × Rect)) :
    CacheInvisible Γ pixmap calls (calls.foldl (TextRasterizer.afterRun Γ) ⟨.default, pixmap, stats⟩) := by
  have hnew : Reached Γ (Painting.mk .default pixmap stats).cache := .new
  obtain ⟨hpixmap, hreached⟩ := foldl_afterRun hnew calls
  exact ⟨hpixmap, fun fonts run clip => (paintRun_afresh hreached.sound fonts run clip).1, hreached.counts,
    fun run clip done => foldl_paintGlyph_counts run clip done _ hreached.counts⟩

/-! ## The pass -/

/-- The painting is what the calls made so far give. -/
structure Executes (Γ : Backend) (canvas : Pixmap) (clips : List Rect) (s : Painting) (r : RasterState) : Prop where
  clips : r.clips = clips
  pixmap : s.pixmap = r.draws.foldl (Draw.exec Γ) canvas
  cache : Reached Γ s.cache

variable {canvas : Pixmap} {clips : List Rect} {r : RasterState} {bounds : Rect}

/-- Draws that are listed are drawn. -/
theorem Executes.fills (h : Executes Γ canvas clips s r) (draws : List Draw) :
    Executes Γ canvas clips { s with pixmap := draws.foldl (Draw.exec Γ) s.pixmap } { r with draws := r.draws ++ draws } := by
  refine ⟨h.clips, ?_, h.cache⟩
  rw [List.foldl_append, ← h.pixmap]

/-- An item is painted as its calls are made. -/
theorem Executes.paintItem (h : Executes Γ canvas clips s r) (fonts : FontDb) (bounds : Rect) (item : DisplayItem) :
    (∃ e, paintItem Γ fonts bounds clips s item = .error e ∧ (step .saturating fonts bounds r item).run = .error e) ∨
      ∃ clips' s' r', paintItem Γ fonts bounds clips s item = .ok (clips', s') ∧
        (step .saturating fonts bounds r item).run = .ok r' ∧ Executes Γ canvas clips' s' r' := by
  have hclips := h.clips
  subst hclips
  cases item with
  | rect rect color => exact .inr ⟨_, _, _, rfl, rfl, h.fills _⟩
  | border rect widths colors => exact .inr ⟨_, _, _, rfl, rfl, h.fills _⟩
  | pushClip rect => exact .inr ⟨_, _, _, rfl, rfl, rfl, h.pixmap, h.cache⟩
  | popClip =>
    refine .inr ⟨_, _, _, rfl, rfl, ?_, ?_, h.cache⟩
    · split <;> rfl
    · split
      · exact h.pixmap
      · exact h.pixmap
  | text run =>
    have hcalls := paintRun_saturating_eq_runPlan fonts run (r.clip bounds)
    have hcached := paintRun_eq_runPlan Γ fonts run (r.clip bounds) s
    have hstep : (step .saturating fonts bounds r (.text run)).run =
        (paintRun .saturating fonts run (r.clip bounds)).run.map fun draws => { r with draws := r.draws ++ draws } := by
      show Id.run (bind (paintRun .saturating fonts run (r.clip bounds)) _) = _
      rw [Id.run_bind]
      rcases (paintRun .saturating fonts run (r.clip bounds)).run with e | draws <;> rfl
    have hitem : Gfx.paintItem Γ fonts bounds r.clips s (.text run) =
        (TextRasterizer.paintRun Γ fonts run (r.clip bounds) s).map fun t => (r.clips, t) := by
      have hclip : r.clips.getLast?.getD bounds = r.clip bounds := rfl
      simp only [Gfx.paintItem, hclip]
      rcases TextRasterizer.paintRun Γ fonts run (r.clip bounds) s with e | t <;> rfl
    rw [hstep, hitem]
    rcases hplan : runPlan fonts run (r.clip bounds) with e | plan
    · rw [hplan] at hcalls hcached
      rw [hcalls, hcached]
      exact .inl ⟨e, rfl, rfl⟩
    · rw [hplan] at hcalls hcached
      refine .inr ⟨_, _, _, congrArg (Except.map _) hcached, congrArg (Except.map _) hcalls, rfl, ?_, ?_⟩
      · have hafresh := (paintRun_afresh h.cache.sound fonts run (r.clip bounds)).1
        rw [paintAfresh, hcached, hcalls] at hafresh
        rw [List.foldl_append, ← h.pixmap]
        exact Except.ok.inj hafresh
      · exact .run h.cache hcached

/-- Painting the items is drawing what executing them lists. -/
theorem Executes.paintItems (h : Executes Γ canvas clips s r) (fonts : FontDb) (bounds : Rect) (items : List DisplayItem) :
    (paintItems Γ fonts bounds clips s items).map (fun t => t.pixmap) =
      (execute .saturating fonts bounds r items).run.map fun r' => r'.draws.foldl (Draw.exec Γ) canvas := by
  induction items generalizing clips s r with
  | nil => exact congrArg Except.ok h.pixmap
  | cons item items ih =>
    have hexecute : (execute .saturating fonts bounds r (item :: items)).run =
        (step .saturating fonts bounds r item).run.bind fun r' => (execute .saturating fonts bounds r' items).run := by
      show Id.run (bind (step .saturating fonts bounds r item) _) = _
      rw [Id.run_bind]
      rcases (step .saturating fonts bounds r item).run with e | r' <;> rfl
    rw [hexecute]
    unfold Gfx.paintItems
    rcases h.paintItem fonts bounds item with ⟨e, hpaint, hstep⟩ | ⟨clips', s', r', hpaint, hstep, hnext⟩
    · rw [hpaint, hstep]
      rfl
    · rw [hpaint, hstep]
      exact ih hnext

/-- The pixels of a display list are those of its calls, executed one after the other on the white canvas. -/
theorem rasterizeWithStats_eq (Γ : Backend) (fonts : FontDb) (dl : DisplayList) (width height : Nat) :
    (rasterizeWithStats Γ fonts dl width height).map Prod.fst =
      (rasterize .saturating fonts dl width height).run.map fun draws =>
        draws.foldl (Draw.exec Γ) (.white width height) := by
  unfold rasterizeWithStats rasterize
  by_cases hsize : width = 0 ∨ height = 0 ∨ maxDimension < width ∨ maxDimension < height
  · rw [if_pos hsize, if_pos hsize]
    rfl
  rw [if_neg hsize, if_neg hsize]
  rcases validate dl (canvasBounds width height) with e | _
  · rfl
  have hstart : Executes Γ (.white width height) [canvasBounds width height] ⟨.default, .white width height, .default⟩
      (start (canvasBounds width height)) := ⟨rfl, rfl, .new⟩
  have hitems := hstart.paintItems fonts (canvasBounds width height) dl.items
  simp only [Id.run_bind]
  rcases hrun : (execute .saturating fonts (canvasBounds width height) (start (canvasBounds width height)) dl.items).run
    with e | r'
  · rw [hrun] at hitems
    rcases hpaint : Gfx.paintItems Γ fonts (canvasBounds width height) [canvasBounds width height]
      ⟨.default, .white width height, .default⟩ dl.items with e' | t
    · rw [hpaint] at hitems
      exact hitems
    · rw [hpaint] at hitems
      cases hitems
  · rw [hrun] at hitems
    rcases hpaint : Gfx.paintItems Γ fonts (canvasBounds width height) [canvasBounds width height]
      ⟨.default, .white width height, .default⟩ dl.items with e' | t
    · rw [hpaint] at hitems
      cases hitems
    · rw [hpaint] at hitems
      exact hitems

/-! ## Translation -/

/-- What a run does to a pixel: its glyphs touch it one after the other. -/
def runEffect (Γ : Backend) (run : GlyphRun) (pixels : PixelClip) (x y : Int) (c : PremultipliedColorU8) :
    PremultipliedColorU8 :=
  run.glyphs.foldl (fun c g => touch Γ run.color (shownMask (rasterized Γ run.font run.size g.id)
    (roundPx (run.origin.x.saturatingAdd g.x)) (roundPx (run.origin.y.saturatingAdd g.y)) pixels x y) c) c

/-- What a run does to one pixel. -/
theorem pixel_foldl_exec (run : GlyphRun) (pixels : PixelClip) (glyphs : List Glyph) (p : Pixmap) (x y : Int) :
    ((glyphs.map (glyphDraw run pixels)).foldl (Draw.exec Γ) p).pixel x y =
      (p.pixel x y).map (runEffect Γ { run with glyphs := glyphs } pixels x y) := by
  induction glyphs generalizing p with
  | nil => exact Option.map_id'.symm
  | cons g glyphs ih =>
    refine (ih _).trans ?_
    show ((blit Γ p (rasterized Γ run.font run.size g.id) _ _ run.color pixels).pixel x y).map _ = _
    rw [pixel_blit, Option.map_map]
    rfl

/-- Moving a run and its clip by whole pixels, without leaving the app units. -/
structure MovesBy (k l : Int) (run : GlyphRun) (clip : Rect) (origin corner : Point) : Prop where
  originX : origin.x.units = run.origin.x.units + 60 * k
  originY : origin.y.units = run.origin.y.units + 60 * l
  cornerX : corner.x.units = clip.origin.x.units + 60 * k
  cornerY : corner.y.units = clip.origin.y.units + 60 * l
  pens : ∀ g ∈ run.glyphs, run.origin.x.AddFits g.x ∧ run.origin.y.AddFits g.y ∧ origin.x.AddFits g.x ∧ origin.y.AddFits g.y
  farX : clip.origin.x.AddFits clip.size.w ∧ corner.x.AddFits clip.size.w
  farY : clip.origin.y.AddFits clip.size.h ∧ corner.y.AddFits clip.size.h

/-- A pixel clip at another place. -/
def PixelClip.moved (clip : PixelClip) (k l : Int) : PixelClip := ⟨clip.x0 + k, clip.y0 + l, clip.x1 + k, clip.y1 + l⟩

/-- Moving by whole pixels moves the nearest pixel as far. -/
theorem roundPx_move {a b : Au} {k : Int} (h : b.units = a.units + 60 * k) : roundPx b = roundPx a + k := by
  unfold roundPx
  split <;> split <;> omega

/-- Moving by whole pixels moves the first whole pixel as far. -/
theorem ceilPx_move {a b : Au} {k : Int} (h : b.units = a.units + 60 * k) : ceilPx b = ceilPx a + k := by
  unfold ceilPx
  split <;> split <;> omega

/-- Moving by whole pixels moves the last whole pixel as far. -/
theorem floorPx_move {a b : Au} {k : Int} (h : b.units = a.units + 60 * k) : floorPx b = floorPx a + k := by
  unfold floorPx
  omega

/-- A mask is shown at a moved pixel as it was at the pixel. -/
theorem shownMask_move (bitmap : GlyphBitmap) (penX penY : Int) (clip : PixelClip) (x y k l : Int) :
    shownMask bitmap (penX + k) (penY + l) (clip.moved k l) (x + k) (y + l) = shownMask bitmap penX penY clip x y := by
  have hcol : x + k - (penX + k + bitmap.left.toInt) = x - (penX + bitmap.left.toInt) := by omega
  have hrow : y + l - (penY + l - bitmap.top.toInt) = y - (penY - bitmap.top.toInt) := by omega
  have hclip : (clip.moved k l).Contains (x + k) (y + l) ↔ clip.Contains x y := by
    simp only [PixelClip.Contains, PixelClip.moved]
    omega
  simp only [shownMask, hcol, hrow, hclip]

namespace MovesBy

variable {k l : Int} {origin corner : Point} (h : MovesBy k l run clip origin corner)
include h

/-- The pixels of a clip that moves by whole pixels move with it. -/
theorem pixelClip_eq : (pixelClip .saturating ⟨corner, clip.size⟩).run =
    (pixelClip .saturating clip).run.map fun pixels => pixels.moved k l := by
  have hx0 := ceilPx_move h.cornerX
  have hy0 := ceilPx_move h.cornerY
  have hright : (Rect.right ⟨corner, clip.size⟩).units = clip.right.units + 60 * k := by
    rw [Rect.right, Rect.right, h.farX.1.units_saturatingAdd, h.farX.2.units_saturatingAdd, h.cornerX]
    omega
  have hbottom : (Rect.bottom ⟨corner, clip.size⟩).units = clip.bottom.units + 60 * l := by
    rw [Rect.bottom, Rect.bottom, h.farY.1.units_saturatingAdd, h.farY.2.units_saturatingAdd, h.cornerY]
    omega
  have hx1 := floorPx_move hright
  have hy1 := floorPx_move hbottom
  have hdef : ∀ r : Rect, (pixelClip .saturating r).run =
      if floorPx r.right ≤ ceilPx r.origin.x ∨ floorPx r.bottom ≤ ceilPx r.origin.y then none
      else some ⟨ceilPx r.origin.x, ceilPx r.origin.y, floorPx r.right, floorPx r.bottom⟩ := fun _ => rfl
  rw [hdef, hdef, hx0, hy0, hx1, hy1]
  by_cases hempty : floorPx clip.right ≤ ceilPx clip.origin.x ∨ floorPx clip.bottom ≤ ceilPx clip.origin.y
  · rw [if_pos hempty, if_pos (by omega)]
    rfl
  · rw [if_neg hempty, if_neg (by omega)]
    rfl

/-- What a run does to a pixel moves with it. -/
theorem runEffect_eq (Γ : Backend) (pixels : PixelClip) (x y : Int) :
    runEffect Γ { run with origin := origin } (pixels.moved k l) (x + k) (y + l) = runEffect Γ run pixels x y := by
  funext c
  unfold runEffect
  refine List.foldl_ext _ _ c fun c g hg => ?_
  obtain ⟨hx, hy, hx', hy'⟩ := h.pens g hg
  have hpenX : (origin.x.saturatingAdd g.x).units = (run.origin.x.saturatingAdd g.x).units + 60 * k := by
    rw [hx.units_saturatingAdd, hx'.units_saturatingAdd, h.originX]
    omega
  have hpenY : (origin.y.saturatingAdd g.y).units = (run.origin.y.saturatingAdd g.y).units + 60 * l := by
    rw [hy.units_saturatingAdd, hy'.units_saturatingAdd, h.originY]
    omega
  rw [roundPx_move hpenX, roundPx_move hpenY, shownMask_move]

end MovesBy

/-- What a run does to the pixels, whatever was painted before. -/
theorem pixel_paintRun {t : Painting} (hs : s.cache.Sound Γ) (ht : TextRasterizer.paintRun Γ fonts run clip s = .ok t) :
    ∃ plan, runPlan fonts run clip = .ok plan ∧
      ∀ x y, t.pixmap.pixel x y = (s.pixmap.pixel x y).map (plan.elim id fun pixels => runEffect Γ run pixels x y) := by
  rw [paintRun_eq_runPlan] at ht
  rcases hplan : runPlan fonts run clip with e | _ | pixels
  · rw [hplan] at ht
    cases ht
  · rw [hplan] at ht
    obtain rfl := Except.ok.inj ht
    exact ⟨none, rfl, fun x y => (Option.map_id_apply).symm⟩
  · rw [hplan] at ht
    refine ⟨some pixels, rfl, fun x y => ?_⟩
    have hpixmap := (foldl_paintGlyph_spec (size_of_runPlan hplan) pixels run.glyphs s hs).1
    rw [← Except.ok.inj ht]
    show (List.foldl (paintGlyph Γ run pixels) s run.glyphs).pixmap.pixel x y = _
    rw [hpixmap, pixel_foldl_exec]
    rfl

/-- Painting a run commutes with moving it and its clip by whole pixels. -/
structure Translates (Γ : Backend) (fonts : FontDb) (run : GlyphRun) (clip : Rect) (origin corner : Point) (k l : Int) :
    Prop where
  /-- Both paintings fail in the same way, or neither does. -/
  fails : ∀ s s' e, TextRasterizer.paintRun Γ fonts run clip s = .error e ↔
    TextRasterizer.paintRun Γ fonts { run with origin := origin } ⟨corner, clip.size⟩ s' = .error e
  /-- What the one does to a pixel the other does to the pixel moved with it, on any pixmaps and whatever is cached. -/
  pixels : ∀ x y, ∃ effect : PremultipliedColorU8 → PremultipliedColorU8,
    (∀ s t, Reached Γ s.cache → TextRasterizer.paintRun Γ fonts run clip s = .ok t →
      t.pixmap.pixel x y = (s.pixmap.pixel x y).map effect) ∧
    ∀ s t, Reached Γ s.cache →
      TextRasterizer.paintRun Γ fonts { run with origin := origin } ⟨corner, clip.size⟩ s = .ok t →
      t.pixmap.pixel (x + k) (y + l) = (s.pixmap.pixel (x + k) (y + l)).map effect

/-- The plan of a run that moves is the plan, moved. -/
theorem MovesBy.runPlan_eq {k l : Int} {origin corner : Point} (h : MovesBy k l run clip origin corner) (fonts : FontDb) :
    runPlan fonts { run with origin := origin } ⟨corner, clip.size⟩ =
      (runPlan fonts run clip).map fun plan => plan.map fun pixels => pixels.moved k l := by
  unfold runPlan
  rw [h.pixelClip_eq]
  rcases fonts run.font with _ | face
  · rfl
  by_cases hskip : run.glyphs.isEmpty ∨ run.color.a = 0
  · simp only [if_pos hskip]
    rfl
  rcases (pixelClip .saturating clip).run with _ | pixels
  · simp only [if_neg hskip]
    rfl
  by_cases hsize : run.size ≤ .zero ∨ maxGlyphPx < run.size
  · simp only [if_neg hskip, Option.map_some, if_pos hsize]
    rfl
  by_cases hparses : (!face.parses) = true
  · simp only [if_neg hskip, Option.map_some, if_neg hsize, if_pos hparses]
    rfl
  · simp only [if_neg hskip, Option.map_some, if_neg hsize, if_neg hparses]
    rfl

/-- A run paints the same wherever it is moved by whole pixels. -/
theorem paintRun_translate (Γ : Backend) (fonts : FontDb) (run : GlyphRun) (clip : Rect) (origin corner : Point) (k l : Int)
    (h : MovesBy k l run clip origin corner) : Translates Γ fonts run clip origin corner k l := by
  have hmoved := h.runPlan_eq fonts
  refine ⟨?_, ?_⟩
  · intro s s' e
    rw [paintRun_eq_runPlan, paintRun_eq_runPlan, hmoved]
    rcases runPlan fonts run clip with e' | _ | pixels
    · exact Iff.rfl
    · exact iff_of_false (fun he => by cases he) (fun he => by cases he)
    · exact iff_of_false (fun he => by cases he) (fun he => by cases he)
  · intro x y
    rcases hplan : runPlan fonts run clip with e | plan
    · rw [hplan] at hmoved
      refine ⟨id, fun s t _ ht => ?_, fun s t _ ht => ?_⟩
      · rw [paintRun_eq_runPlan, hplan] at ht
        cases ht
      · rw [paintRun_eq_runPlan, hmoved] at ht
        cases ht
    · rw [hplan] at hmoved
      refine ⟨plan.elim id fun pixels => runEffect Γ run pixels x y, fun s t hs ht => ?_, fun s t hs ht => ?_⟩
      · obtain ⟨plan', hplan', hpixel⟩ := pixel_paintRun hs.sound ht
        obtain rfl := Except.ok.inj (hplan.symm.trans hplan')
        exact hpixel x y
      · obtain ⟨plan', hplan', hpixel⟩ := pixel_paintRun hs.sound ht
        obtain rfl := Except.ok.inj (hmoved.symm.trans hplan')
        rw [hpixel]
        cases plan with
        | none => rfl
        | some pixels => exact congrArg (fun f => Option.map f _) (h.runEffect_eq Γ pixels x y)

/-- A glyph whose pen is half a pixel left of the origin, moved across the origin. -/
theorem paintRun_translate_sample :
    MovesBy 1 (-2) ⟨⟨0⟩, .fromPx 16, ⟨⟨-30, by decide⟩, .zero⟩, [⟨7, .zero, .zero, .zero⟩], .black⟩
        ⟨⟨.fromPx (-2), .fromPx (-2)⟩, ⟨.fromPx 4, .fromPx 4⟩⟩ ⟨⟨30, by decide⟩, .fromPx (-2)⟩ ⟨.fromPx (-1), .fromPx (-4)⟩ ∧
      Translates .sample (fun _ => some ⟨"Ahem", 0, true⟩)
        ⟨⟨0⟩, .fromPx 16, ⟨⟨-30, by decide⟩, .zero⟩, [⟨7, .zero, .zero, .zero⟩], .black⟩
        ⟨⟨.fromPx (-2), .fromPx (-2)⟩, ⟨.fromPx 4, .fromPx 4⟩⟩ ⟨⟨30, by decide⟩, .fromPx (-2)⟩ ⟨.fromPx (-1), .fromPx (-4)⟩
        1 (-2) := by
  have hmoves : MovesBy 1 (-2) ⟨⟨0⟩, .fromPx 16, ⟨⟨-30, by decide⟩, .zero⟩, [⟨7, .zero, .zero, .zero⟩], .black⟩
      ⟨⟨.fromPx (-2), .fromPx (-2)⟩, ⟨.fromPx 4, .fromPx 4⟩⟩ ⟨⟨30, by decide⟩, .fromPx (-2)⟩
      ⟨.fromPx (-1), .fromPx (-4)⟩ :=
    ⟨by decide, by decide, by decide, by decide, by decide, by decide, by decide⟩
  exact ⟨hmoves, paintRun_translate .sample _ _ _ _ _ 1 (-2) hmoves⟩

end Gfx

end ChromeLight
