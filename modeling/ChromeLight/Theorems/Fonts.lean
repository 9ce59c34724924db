import ChromeLight.Fonts
import ChromeLight.Theorems.Text

/-!
# Keys of fonts

A face of the bundled database is found under its key, and a run of the text shaper has the key of the face it was shaped with: the
file and the index the rasterizer finds under it are the ones `parley` named (`textShaper_keys`).
-/

namespace ChromeLight

namespace Fonts

variable {δ : Type} {register : Registrar δ}

/-! ## The database -/

/-- Each face has the key of its position. -/
def Keyed (faces : List (FontFace δ)) : Prop :=
  ∀ (i : Nat) (face : FontFace δ), faces[i]? = some face → face.key = ⟨.ofNat (min i u32Max)⟩

theorem Keyed.push {faces : List (FontFace δ)} (h : Keyed faces) (data : δ) (family : String) (index : UInt32) :
    Keyed (pushFace data family faces index) := by
  intro i face hi
  rcases Nat.lt_trichotomy i faces.length with hlt | rfl | hlt
  · rw [pushFace, List.getElem?_append_left hlt] at hi
    exact h i face hi
  · rw [pushFace, List.getElem?_concat_length] at hi
    obtain rfl := Option.some.inj hi
    rfl
  · rw [pushFace, List.getElem?_eq_none (by simp; omega)] at hi
    cases hi

/-- The faces of a file come behind those there are, and are all of its family. -/
theorem foldl_pushFace (data : δ) (family : String) (indices : List UInt32) {faces : List (FontFace δ)} (h : Keyed faces) :
    Keyed (indices.foldl (pushFace data family) faces) ∧ ∃ added, indices.foldl (pushFace data family) faces = faces ++ added ∧
      ∀ face ∈ added, face.family = family ∧ face.data = data := by
  induction indices generalizing faces with
  | nil => exact ⟨h, [], (List.append_nil faces).symm, by simp⟩
  | cons index indices ih =>
    obtain ⟨hkeyed, added, hadded, hall⟩ := ih (h.push data family index)
    refine ⟨hkeyed, { key := ⟨.ofNat (min faces.length u32Max)⟩, family, data, index } :: added, ?_, ?_⟩
    · rw [List.foldl_cons, hadded, pushFace, List.append_assoc]
      rfl
    · intro face hface
      rcases List.mem_cons.1 hface with rfl | hface
      · exact ⟨rfl, rfl⟩
      · exact hall face hface

theorem registerBundledFace_ok {data : δ} {family : String} {faces faces' : List (FontFace δ)} (hfaces : Keyed faces)
    (h : registerBundledFace register data family faces = .ok faces') :
    (∃ name indices, register data = [(name, indices)] ∧ name.getD "" = family) ∧ Keyed faces' ∧
      ∃ added, faces' = faces ++ added ∧ ∀ face ∈ added, face.family = family ∧ face.data = data := by
  unfold registerBundledFace at h
  split at h
  · cases h
  · rename_i name indices hregister
    split at h
    · cases h
    · rename_i hname
      obtain rfl := Except.ok.inj h
      exact ⟨⟨name, indices, hregister, not_not.1 hname⟩, foldl_pushFace data family indices hfaces⟩
  · cases h

/-- A database of the two bundled files: each face is under its key, and is of its file's family. -/
structure Bundled (register : Registrar δ) (ahem notoSans : δ) (db : FontDb δ) : Prop where
  keyed : Keyed db.faces
  families : ∀ face ∈ db.faces, face.family = ahemFamily ∧ face.data = ahem ∨ face.family = notoSansFamily ∧ face.data = notoSans
  /-- The two files are not the same one. -/
  files : ahem ≠ notoSans

variable {ahem notoSans : δ} {db : FontDb δ}

theorem bundled_ok (h : FontDb.bundled register ahem notoSans = .ok db) : Bundled register ahem notoSans db := by
  unfold FontDb.bundled at h
  cases hahem : registerBundledFace register ahem ahemFamily [] with
  | error e =>
    rw [hahem] at h
    cases h
  | ok first =>
    rw [hahem] at h
    cases hnoto : registerBundledFace register notoSans notoSansFamily first with
    | error e =>
      simp only [hnoto, bind, Except.bind] at h
      cases h
    | ok second =>
      simp only [hnoto, bind, Except.bind, pure, Except.pure] at h
      obtain rfl := Except.ok.inj h
      obtain ⟨⟨name, indices, hregister, hname⟩, hkeyed, added, hadded, hall⟩ := registerBundledFace_ok (by intro i; simp) hahem
      obtain ⟨⟨name', indices', hregister', hname'⟩, hkeyed', added', rfl, hall'⟩ := registerBundledFace_ok hkeyed hnoto
      rw [List.nil_append] at hadded
      subst hadded
      refine ⟨hkeyed', ?_, ?_⟩
      · intro face hface
        rcases List.mem_append.1 hface with hface | hface
        · exact .inl (hall face hface)
        · exact .inr (hall' face hface)
      · rintro rfl
        rw [hregister] at hregister'
        obtain ⟨rfl, -⟩ := Prod.mk.inj (List.cons.inj hregister').1
        have : ahemFamily = notoSansFamily := hname.symm.trans hname'
        revert this
        decide

/-- A face is found under its key. -/
theorem Bundled.face_key (h : Bundled register ahem notoSans db) (hcount : db.faces.length ≤ u32Max + 1) {face : FontFace δ}
    (hface : face ∈ db.faces) : db.face face.key = some face := by
  obtain ⟨i, hi⟩ := List.getElem?_of_mem hface
  have hlt := (List.getElem?_eq_some_iff.1 hi).1
  have hmin : min i u32Max = i := Nat.min_eq_left (by omega)
  have hsize : i < 2 ^ 32 := by
    rw [u32Max] at hcount
    omega
  have hkey : (UInt32.ofNat i).toNat = i := UInt32.toNat_ofNat_of_lt' hsize
  rw [FontDb.face, h.keyed i face hi, hmin]
  exact (congrArg (db.faces[·]?) hkey).trans hi

/-- Of two faces of one family both are of one file; and names differ in more than case. -/
theorem Bundled.family_eq (h : Bundled register ahem notoSans db) {a b : FontFace δ} (ha : a ∈ db.faces) (hb : b ∈ db.faces) :
    (eqIgnoreAsciiCase a.family b.family = true ↔ a.family = b.family) ∧ (a.family = b.family ↔ a.data = b.data) := by
  have hne : notoSans ≠ ahem := h.files.symm
  have hnames : eqIgnoreAsciiCase ahemFamily notoSansFamily = false ∧ eqIgnoreAsciiCase notoSansFamily ahemFamily = false ∧
      eqIgnoreAsciiCase ahemFamily ahemFamily = true ∧ eqIgnoreAsciiCase notoSansFamily notoSansFamily = true ∧
      ahemFamily ≠ notoSansFamily ∧ notoSansFamily ≠ ahemFamily := by decide
  obtain ⟨h1, h2, h3, h4, h5, h6⟩ := hnames
  rcases h.families a ha with ⟨hfa, hda⟩ | ⟨hfa, hda⟩ <;> rcases h.families b hb with ⟨hfb, hdb⟩ | ⟨hfb, hdb⟩ <;>
    simp [hfa, hda, hfb, hdb, h1, h2, h3, h4, h5, h6, h.files, hne]

/-! ## The faces of the text shaper -/

/-- The face that the name of its family resolves to. -/
def Resolved (db : FontDb δ) (face : FontFace δ) : Prop := db.faces.find? (fun other => other.family = face.family) = some face

theorem Bundled.keyFor_family (h : Bundled register ahem notoSans db) {face : FontFace δ} (hface : face ∈ db.faces) :
    ∃ first, Resolved db first ∧ first.family = face.family ∧ db.keyFor face.family = some first.key := by
  have hcongr : (db.faces.find? fun other => eqIgnoreAsciiCase other.family face.family) =
      db.faces.find? fun other => other.family = face.family := by
    rw [← List.head?_filter, ← List.head?_filter]
    congr 1
    refine List.filter_congr ?_
    intro other hother
    rw [Bool.eq_iff_iff, (h.family_eq hother hface).1, decide_eq_true_iff]
  cases hfind : db.faces.find? fun other => other.family = face.family with
  | none =>
    have := List.find?_eq_none.1 hfind face hface
    simp at this
  | some first =>
    have hfamily : first.family = face.family := by simpa using List.find?_some hfind
    refine ⟨first, by rw [Resolved, hfamily, hfind], hfamily, ?_⟩
    rw [FontDb.keyFor, hcongr, hfind]

theorem Bundled.mem_shaperFaces (h : Bundled register ahem notoSans db) (hcount : db.faces.length ≤ u32Max + 1)
    (face : FontFace δ) : face ∈ db.shaperFaces ↔ Resolved db face := by
  simp only [FontDb.shaperFaces, FontDb.families, List.mem_filterMap, List.mem_map, exists_exists_and_eq_and]
  constructor
  · rintro ⟨named, hnamed, hface⟩
    obtain ⟨first, hfirst, -, hkey⟩ := h.keyFor_family hnamed
    rw [hkey, Option.bind_some, h.face_key hcount (List.mem_of_find?_eq_some hfirst)] at hface
    obtain rfl := Option.some.inj hface
    exact hfirst
  · intro hface
    have hmem := List.mem_of_find?_eq_some hface
    obtain ⟨first, hfirst, hfamily, hkey⟩ := h.keyFor_family hmem
    refine ⟨face, hmem, ?_⟩
    rw [hkey, Option.bind_some, h.face_key hcount (List.mem_of_find?_eq_some hfirst), ← hfirst, hfamily]
    exact hface

/-- A key that the text shaper finds is that of a face, however many there are. -/
theorem exists_face_of_keyForFont [DecidableEq δ] (h : Keyed db.faces) {font : FontData δ} {key : FontKey}
    (hkey : keyForFont db.shaperFaces font = some key) : ∃ face ∈ db.faces, db.face key = some face := by
  obtain ⟨found, hfound, rfl⟩ := Option.map_eq_some_iff.1 hkey
  obtain ⟨family, -, hresolve⟩ := List.mem_filterMap.1 (List.mem_of_find?_eq_some hfound)
  obtain ⟨place, -, hplace⟩ := Option.bind_eq_some_iff.1 hresolve
  have hlt := (List.getElem?_eq_some_iff.1 hplace).1
  have hsmall : min place.key.toNat u32Max < 2 ^ 32 := by
    rw [u32Max]
    omega
  have hfoundKey : found.key.key.toNat = min place.key.toNat u32Max := by
    rw [h _ _ hplace]
    exact UInt32.toNat_ofNat_of_lt' hsmall
  have hindex : found.key.key.toNat < db.faces.length := by omega
  exact ⟨_, List.getElem_mem hindex, List.getElem?_eq_getElem hindex⟩

/-- The key that the text shaper finds for a font is that of the face with the font's file and index, if it is the first face of
its family. -/
theorem Bundled.keyForFont_iff [DecidableEq δ] (h : Bundled register ahem notoSans db) (hcount : db.faces.length ≤ u32Max + 1)
    (font : FontData δ) (key : FontKey) : keyForFont db.shaperFaces font = some key ↔
      ∃ face, db.face key = some face ∧ face.data = font.data ∧ face.index = font.index ∧ Resolved db face := by
  constructor
  · intro hkey
    obtain ⟨face, hfind, rfl⟩ := Option.map_eq_some_iff.1 hkey
    have hresolved := (h.mem_shaperFaces hcount face).1 (List.mem_of_find?_eq_some hfind)
    obtain ⟨hindex, hdata⟩ : face.index = font.index ∧ face.data = font.data := by simpa using List.find?_some hfind
    exact ⟨face, h.face_key hcount (List.mem_of_find?_eq_some hresolved), hdata, hindex, hresolved⟩
  · rintro ⟨face, hface, hdata, hindex, hresolved⟩
    cases hfind : db.shaperFaces.find? fun face => face.index = font.index ∧ face.data = font.data with
    | none =>
      have := List.find?_eq_none.1 hfind face ((h.mem_shaperFaces hcount face).2 hresolved)
      simp [hdata, hindex] at this
    | some found =>
      have hfound := (h.mem_shaperFaces hcount found).1 (List.mem_of_find?_eq_some hfind)
      obtain ⟨-, hdata'⟩ : found.index = font.index ∧ found.data = font.data := by simpa using List.find?_some hfind
      have hmem := List.mem_of_find?_eq_some hresolved
      have hmem' := List.mem_of_find?_eq_some hfound
      -- one file has one family, and a family one first face
      have hfamily := (h.family_eq hmem hmem').2.2 (hdata.trans hdata'.symm)
      rw [Resolved, hfamily] at hresolved
      obtain rfl := Option.some.inj (hresolved.symm.trans hfound)
      have hkeys : face.key = key := by
        have hplace := h.keyed _ _ hface
        have hlt := (List.getElem?_eq_some_iff.1 hface).1
        rw [hplace, Nat.min_eq_left (by omega), UInt32.ofNat_toNat]
      rw [keyForFont, hfind, Option.map_some, hkeys]

/-! ## Shaped runs -/

variable {O : F32Ops} {spans : List Text.Span} {items : List InlineItem} {style : LayoutStyle}

/-- The clusters of a line are those of its runs, all of them in fonts that were found. -/
theorem lineClusters_ok {line : Text.ShapedLine} {clusters : List Text.ClusterRecord}
    (h : Text.lineClusters O line spans items style = .ok clusters) :
    (∀ run ∈ line.runs, run.font.isSome) ∧
      ∀ c ∈ clusters, ∃ run ∈ line.runs, run.font = some c.font ∧ O.fromPx run.fontSize = c.size := by
  unfold Text.lineClusters at h
  generalize line.runs = runs at h ⊢
  induction runs generalizing clusters with
  | nil =>
    obtain rfl := Except.ok.inj h
    simp
  | cons run runs ih =>
    rw [List.mapM_cons] at h
    cases hfont : run.font with
    | none =>
      rw [hfont] at h
      cases h
    | some font =>
      rw [hfont] at h
      simp only [bind, Except.bind] at h ih
      split at h
      · cases h
      · rename_i parts hparts
        split at hparts
        · cases hparts
        · rename_i rest hrest
          obtain rfl := Except.ok.inj hparts
          obtain rfl := Except.ok.inj h
          obtain ⟨hsome, hall⟩ := ih (by rw [hrest]; rfl)
          refine ⟨?_, ?_⟩
          · intro other hother
            rcases List.mem_cons.1 hother with rfl | hother
            · rw [hfont]
              rfl
            · exact hsome other hother
          · intro c hc
            rw [List.flatten_cons] at hc
            rcases List.mem_append.1 hc with hc | hc
            · obtain ⟨cluster, -, rfl⟩ := List.mem_map.1 hc
              exact ⟨run, List.mem_cons_self, hfont, rfl⟩
            · obtain ⟨other, hother, heq⟩ := hall c hc
              exact ⟨other, List.mem_cons_of_mem _ hother, heq⟩

theorem exists_of_forall₂ {α β : Type} {R : α → β → Prop} {l : List α} {m : List β} (h : List.Forall₂ R l m) {b : β}
    (hb : b ∈ m) : ∃ a ∈ l, R a b := by
  induction h with
  | nil => cases hb
  | @cons a b' l m hab _ ih =>
    rcases List.mem_cons.1 hb with rfl | hb
    · exact ⟨a, List.mem_cons_self, hab⟩
    · obtain ⟨a', ha', hR⟩ := ih hb
      exact ⟨a', List.mem_cons_of_mem _ ha', hR⟩

/-- Each run of a line box has the font and the size of one of the clusters. -/
theorem buildRuns_font {clusters : List Text.ClusterRecord} {lineX : F32} {run : GlyphRun}
    (h : run ∈ (Text.buildRuns O clusters lineX).1) : ∃ c ∈ clusters, c.font = run.font ∧ c.size = run.size := by
  obtain ⟨groups, hbuilding⟩ := Text.building_foldl O clusters lineX
  unfold Text.buildRuns at h
  dsimp only at h
  rw [List.unzip_eq_map] at h
  obtain ⟨entry, hentry, rfl⟩ := List.mem_map.1 h
  obtain ⟨group, hgroup, hholds⟩ := exists_of_forall₂ hbuilding.zip (List.mem_filter.1 hentry).1
  obtain ⟨c, hc⟩ := List.exists_mem_of_ne_nil _ (hbuilding.cut.nonempty group hgroup)
  obtain ⟨hfont, hsize, -⟩ := hholds.uniform c hc
  refine ⟨c, ?_, hfont, hsize⟩
  rw [← hbuilding.cut.flatten]
  exact List.mem_flatMap.2 ⟨group, hgroup, hc⟩

/-- A run of a line box is in the font and of the size of a run that was shaped. -/
def ShapedFrom (O : F32Ops) (lines : List Text.ShapedLine) (run : GlyphRun) : Prop :=
  ∃ line ∈ lines, ∃ shaped ∈ line.runs, shaped.font = some run.font ∧ O.fromPx shaped.fontSize = run.size

theorem ShapedFrom.mono {lines lines' : List Text.ShapedLine} {run : GlyphRun} (h : ShapedFrom O lines run)
    (hsub : ∀ line ∈ lines, line ∈ lines') : ShapedFrom O lines' run := by
  obtain ⟨line, hline, hrun⟩ := h
  exact ⟨line, hsub line hline, hrun⟩

theorem lineBox_font {line : Text.ShapedLine} {clusters : List Text.ClusterRecord} {text : StrTendril} {height : Au}
    (h : Text.lineClusters O line spans items style = .ok clusters) :
    ∀ run ∈ (Text.lineBox O height line (Text.trimTrailingSpaces O clusters text spans items)).runs, ShapedFrom O [line] run := by
  intro run hrun
  obtain ⟨c, hc, hfont, hsize⟩ := buildRuns_font hrun
  have hmem : c ∈ clusters := (List.rdropWhile_prefix _ _).subset hc
  obtain ⟨shaped, hshaped, hfont', hsize'⟩ := (lineClusters_ok h).2 c hmem
  exact ⟨line, List.mem_singleton_self line, shaped, hshaped, by rw [hfont', hfont], by rw [hsize', hsize]⟩

theorem lineClusters_error {line : Text.ShapedLine} {e : LayoutError}
    (h : Text.lineClusters O line spans items style = .error e) :
    e = .fontNotBundled (", ".intercalate style.fontFamily) ∧ ∃ run ∈ line.runs, run.font = none := by
  unfold Text.lineClusters at h
  generalize line.runs = runs at h ⊢
  induction runs with
  | nil => cases h
  | cons run runs ih =>
    rw [List.mapM_cons] at h
    cases hfont : run.font with
    | none =>
      rw [hfont] at h
      obtain rfl := Except.error.inj h
      exact ⟨rfl, run, List.mem_cons_self, hfont⟩
    | some font =>
      rw [hfont] at h
      simp only [bind, Except.bind] at h ih
      split at h
      · rename_i e' hparts
        obtain rfl := Except.error.inj h
        split at hparts
        · rename_i hrest
          obtain rfl := Except.error.inj hparts
          obtain ⟨he, other, hother, hnone⟩ := ih (by rw [hrest])
          exact ⟨he, other, List.mem_cons_of_mem _ hother, hnone⟩
        · cases hparts
      · cases h

/-- The lines are collected if the fonts of all runs were found, each run in the font of one of them; otherwise the error names
the families of the block. -/
theorem collectLines_cases (O : F32Ops) (lineCount : Nat) (text : StrTendril) (spans : List Text.Span) (items : List InlineItem)
    (style : LayoutStyle) (index : Nat) (lines : List Text.ShapedLine) :
    (∃ boxes, Text.collectLines O lineCount text spans items style index lines = .ok boxes ∧
      (∀ line ∈ lines, ∀ run ∈ line.runs, run.font.isSome) ∧ ∀ box ∈ boxes, ∀ run ∈ box.runs, ShapedFrom O lines run) ∨
    Text.collectLines O lineCount text spans items style index lines = .error (.fontNotBundled (", ".intercalate style.fontFamily)) ∧
      ∃ line ∈ lines, ∃ run ∈ line.runs, run.font = none := by
  induction lines generalizing index with
  | nil => exact .inl ⟨[], rfl, by simp, by simp⟩
  | cons line lines ih =>
    rw [Text.collectLines]
    cases hline : Text.lineClusters O line spans items style with
    | error e =>
      obtain ⟨rfl, run, hrun, hnone⟩ := lineClusters_error hline
      exact .inr ⟨rfl, line, List.mem_cons_self, run, hrun, hnone⟩
    | ok clusters =>
      rcases ih (index + 1) with ⟨boxes, hboxes, hsome, hfonts⟩ | ⟨herror, other, hother, hnone⟩
      · have hfonts' : ∀ box ∈ boxes, ∀ run ∈ box.runs, ShapedFrom O (line :: lines) run := by
          intro box hbox run hrun
          exact (hfonts box hbox run hrun).mono fun _ => List.mem_cons_of_mem line
        have hsome' : ∀ other ∈ line :: lines, ∀ run ∈ other.runs, run.font.isSome := by
          intro other hother
          rcases List.mem_cons.1 hother with rfl | hother
          · exact (lineClusters_ok hline).1
          · exact hsome other hother
        simp only [hboxes, bind, Except.bind, pure, Except.pure]
        split
        · exact .inl ⟨boxes, rfl, hsome', hfonts'⟩
        · refine .inl ⟨_, rfl, hsome', ?_⟩
          intro box hbox run hrun
          rcases List.mem_cons.1 hbox with rfl | hbox
          · refine (lineBox_font hline run hrun).mono ?_
            intro other hother
            rw [List.mem_singleton.1 hother]
            exact List.mem_cons_self
          · exact hfonts' box hbox run hrun
      · refine .inr ⟨?_, other, List.mem_cons_of_mem _ hother, hnone⟩
        simp only [herror, bind, Except.bind]

/-- `parley` shaped that run when it was given a block's content. -/
def ShapedBy (parley : ParleyBreaker δ) (items : List InlineItem) (style : LayoutStyle) (width : Au) (run : ParleyRun δ) : Prop :=
  (Text.concatenate items).1 ≠ [] ∧
    ∃ line ∈ parley (Text.concatenate items).1 items (Text.concatenate items).2 style width, run ∈ line.runs

variable [DecidableEq δ] {faces : List (FontFace δ)} {parley : ParleyBreaker δ} {width : Au}

/-- The text shaper over some faces: each run has the key that is found for a font that `parley` shaped in, or one is not found. -/
theorem layoutInline_cases (O : F32Ops) (faces : List (FontFace δ)) (parley : ParleyBreaker δ) (items : List InlineItem)
    (style : LayoutStyle) (width : Au) :
    (∃ boxes, Text.layoutInline O (lineBreaker faces parley) items style width = .ok boxes ∧
      (∀ run, ShapedBy parley items style width run → (keyForFont faces run.font).isSome) ∧
      ∀ box ∈ boxes, ∀ run ∈ box.runs, ∃ source, ShapedBy parley items style width source ∧
        keyForFont faces source.font = some run.font ∧ O.fromPx source.fontSize = run.size) ∨
    Text.layoutInline O (lineBreaker faces parley) items style width = .error (.fontNotBundled (", ".intercalate style.fontFamily)) ∧
      ∃ run, ShapedBy parley items style width run ∧ keyForFont faces run.font = none := by
  by_cases htext : (Text.concatenate items).1 = []
  · refine .inl ⟨[], ?_, ?_, by simp⟩
    · simp [Text.layoutInline, htext]
    · rintro run ⟨hne, -⟩
      exact absurd htext hne
  · have heq : Text.layoutInline O (lineBreaker faces parley) items style width =
        Text.collectLines O (lineBreaker faces parley (Text.concatenate items).1 items (Text.concatenate items).2 style width).length
          (Text.concatenate items).1 (Text.concatenate items).2 items style 0
          (lineBreaker faces parley (Text.concatenate items).1 items (Text.concatenate items).2 style width) := by
      rw [Text.layoutInline]
      exact if_neg (fun hempty => htext (List.isEmpty_iff.1 hempty))
    have hruns : ∀ line ∈ lineBreaker faces parley (Text.concatenate items).1 items (Text.concatenate items).2 style width,
        ∀ run ∈ line.runs, ∃ source, ShapedBy parley items style width source ∧ run = source.shaped faces := by
      intro line hline run hrun
      obtain ⟨source, hsource, rfl⟩ := List.mem_map.1 hline
      obtain ⟨shaped, hshaped, rfl⟩ := List.mem_map.1 hrun
      exact ⟨shaped, ⟨htext, source, hsource, hshaped⟩, rfl⟩
    rw [heq]
    rcases collectLines_cases O _ (Text.concatenate items).1 (Text.concatenate items).2 items style 0
      (lineBreaker faces parley (Text.concatenate items).1 items (Text.concatenate items).2 style width) with ⟨boxes, hboxes, hsome, hfonts⟩ | ⟨herror, line, hline, run, hrun, hnone⟩
    · refine .inl ⟨boxes, hboxes, ?_, ?_⟩
      · rintro run ⟨-, line, hline, hrun⟩
        exact hsome _ (List.mem_map_of_mem hline) _ (List.mem_map_of_mem hrun)
      · intro box hbox run hrun
        obtain ⟨line, hline, shaped, hshaped, hfont, hsize⟩ := hfonts box hbox run hrun
        obtain ⟨source, hsource, rfl⟩ := hruns line hline shaped hshaped
        exact ⟨source, hsource, hfont, hsize⟩
    · obtain ⟨source, hsource, rfl⟩ := hruns line hline run hrun
      exact .inr ⟨herror, source, hsource, hnone⟩

/-- A face that the text shaper finds for a font: the font's file and index, and the first of its family. -/
def IsFaceOf (db : FontDb δ) (font : FontData δ) (face : FontFace δ) : Prop :=
  face.data = font.data ∧ face.index = font.index ∧ Resolved db face

/-- Over the bundled database, each run of the text shaper has the key of the very face that `parley` shaped it with, and the
shaper fails, with the block's families, exactly if `parley` shaped with another one. -/
theorem textShaper_keys (h : FontDb.bundled register ahem notoSans = .ok db) (hcount : db.faces.length ≤ u32Max + 1)
    (O : F32Ops) (parley : ParleyBreaker δ) (items : List InlineItem) (style : LayoutStyle) (width : Au) :
    (∀ boxes, textShaper O db parley items style width = .ok boxes → ∀ box ∈ boxes, ∀ run ∈ box.runs,
      ∃ source face, ShapedBy parley items style width source ∧ IsFaceOf db source.font face ∧ db.face run.font = some face ∧
        O.fromPx source.fontSize = run.size) ∧
    ∀ e, textShaper O db parley items style width = .error e ↔ e = .fontNotBundled (", ".intercalate style.fontFamily) ∧
      ∃ source, ShapedBy parley items style width source ∧ ¬∃ face, IsFaceOf db source.font face := by
  have hdb := bundled_ok h
  have hfound : ∀ font : FontData δ, (∃ face, IsFaceOf db font face) ↔ (keyForFont db.shaperFaces font).isSome := by
    intro font
    rw [Option.isSome_iff_exists]
    constructor
    · rintro ⟨face, hdata, hindex, hresolved⟩
      exact ⟨face.key, (hdb.keyForFont_iff hcount font face.key).2
        ⟨face, hdb.face_key hcount (List.mem_of_find?_eq_some hresolved), hdata, hindex, hresolved⟩⟩
    · rintro ⟨key, hkey⟩
      obtain ⟨face, -, hface⟩ := (hdb.keyForFont_iff hcount font key).1 hkey
      exact ⟨face, hface⟩
  rw [textShaper]
  rcases layoutInline_cases O db.shaperFaces parley items style width with ⟨boxes, hboxes, hsome, hruns⟩ | ⟨herror, run, hrun, hnone⟩
  · rw [hboxes]
    refine ⟨?_, ?_⟩
    · rintro _ ⟨⟩ box hbox run hrun
      obtain ⟨source, hsource, hkey, hsize⟩ := hruns box hbox run hrun
      obtain ⟨face, hface, his⟩ := (hdb.keyForFont_iff hcount source.font run.font).1 hkey
      exact ⟨source, face, hsource, his, hface, hsize⟩
    · intro e
      simp only [reduceCtorEq, false_iff]
      rintro ⟨-, source, hsource, hno⟩
      exact hno ((hfound source.font).2 (hsome source hsource))
  · rw [herror]
    refine ⟨nofun, ?_⟩
    intro e
    constructor
    · rintro ⟨⟩
      refine ⟨rfl, run, hrun, ?_⟩
      rw [hfound, hnone]
      simp
    · rintro ⟨rfl, -⟩
      rfl

/-- Operations for runs without clusters, of size zero. -/
def sampleFloats : F32Ops where
  add a _ := a
  sub a _ := a
  le _ _ := true
  fromPx _ := .zero

/-- Two files of one face each, named by their families. -/
def twoFiles : Registrar String := fun file => [(some file, [0])]

def twoFaces : FontDb String where
  faces := [{ key := ⟨0⟩, family := "Ahem", data := "Ahem", index := 0 }, { key := ⟨1⟩, family := "Noto Sans", data := "Noto Sans", index := 0 }]

/-- Shapes everything with the face of an index that the file does not have. -/
def strangeIndex : ParleyBreaker String := fun _ _ _ _ _ =>
  [{ runs := [{ font := ⟨"Ahem", 1⟩, fontSize := .zero, clusters := [] }]
     offset := .zero
     inlineMinCoord := .zero
     baseline := .zero
     blockMinCoord := .zero }]

/-- A font that is not a bundled face. -/
theorem textShaper_keys_strange : textShaper sampleFloats twoFaces strangeIndex [.lineBreak] (.initial .sample) .zero =
    .error (.fontNotBundled "sans-serif") := by
  have hdb : FontDb.bundled twoFiles "Ahem" "Noto Sans" = .ok twoFaces := by decide
  have hcount : twoFaces.faces.length ≤ u32Max + 1 := by decide
  refine ((textShaper_keys hdb hcount sampleFloats strangeIndex [.lineBreak] (.initial .sample) .zero).2 _).2 ⟨by decide, ?_⟩
  refine ⟨{ font := ⟨"Ahem", 1⟩, fontSize := .zero, clusters := [] }, ⟨by decide, _, List.mem_cons_self, List.mem_cons_self⟩, ?_⟩
  rintro ⟨face, -, hindex, hface⟩
  rcases (List.mem_pair.1 (List.mem_of_find?_eq_some hface)) with rfl | rfl <;> cases hindex

end Fonts

end ChromeLight
