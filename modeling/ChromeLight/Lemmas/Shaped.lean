import ChromeLight.Theorems.Paint
import ChromeLight.Lemmas.Overflow

/-!
# Runs from the shaper to the display list

Layout moves the runs of the shaper and the painter drops some of them, but neither makes one: the text items of a display list
are in fonts of runs that the shaper returned (`Paint.text_of_build`), and an error of layout is one the shaper returned
(`Block.error_of_run`).
-/

namespace ChromeLight

/-- The shaper returned a run in that font. -/
def Shaper.Uses (shape : Shaper) (font : FontKey) : Prop :=
  ∃ items style width lines, shape items style width = .ok lines ∧ ∃ line ∈ lines, ∃ run ∈ line.runs, run.font = font

/-- The shaper returned that error. -/
def Shaper.Fails (shape : Shaper) (e : LayoutError) : Prop := ∃ items style width, shape items style width = .error e

variable {Γ : FloatOps} {shape : Shaper} {tree : BoxTree} {document : Document} {viewport : Size}

/-! ## Texts -/

namespace Inline

/-- One round of the loop keeps that groups hold runs of the line. -/
theorem groupStep_runs {line : LineBox} {s : GroupState} (hs : ∀ g ∈ s.groups, ∀ run ∈ g.runs, run ∈ line.runs) (index : Nat) :
    ∀ g ∈ (groupStep line s index).groups, ∀ run ∈ g.runs, run ∈ line.runs := by
  unfold groupStep
  dsimp only
  split
  · intro g hg run hrun
    rcases List.mem_append.1 hg with hg | hg
    · exact hs g hg run hrun
    · obtain rfl := List.mem_singleton.1 hg
      exact List.mem_of_mem_drop (List.mem_of_mem_take hrun)
  · exact hs

/-- A group holds runs of its line. -/
theorem mem_groupRuns {line : LineBox} : ∀ g ∈ groupRuns line, ∀ run ∈ g.runs, run ∈ line.runs := by
  have key : ∀ (indices : List Nat) (s : GroupState), (∀ g ∈ s.groups, ∀ run ∈ g.runs, run ∈ line.runs) →
      ∀ g ∈ (indices.foldl (groupStep line) s).groups, ∀ run ∈ g.runs, run ∈ line.runs := by
    intro indices
    induction indices with
    | nil => exact fun s hs => hs
    | cons index indices ih => exact fun s hs => ih _ (groupStep_runs hs index)
  exact key _ { groups := [], start := 0 } (by simp)

theorem mem_textsOutline {style : LayoutStyle} {items : List InlineItem} {groups : List RunGroup} {d : FragmentData}
    (hd : d ∈ (textsOutline style items groups).preorder) : ∃ g ∈ groups, d = textData style items g := by
  induction groups with
  | nil => cases hd
  | cons g groups ih =>
    rcases List.mem_cons.1 hd with rfl | hd
    · exact ⟨g, List.mem_cons_self, rfl⟩
    · obtain ⟨g', hg', h⟩ := ih hd
      exact ⟨g', List.mem_cons_of_mem _ hg', h⟩

/-- The texts of some lines hold runs of them. -/
theorem mem_linesOutline {style : LayoutStyle} {items : List InlineItem} {lines : List LineBox} {d : FragmentData}
    {runs : List GlyphRun} (hd : d ∈ (linesOutline style items lines).preorder) (hk : d.kind = .text runs) :
    ∀ run ∈ runs, ∃ line ∈ lines, ∃ shaped ∈ line.runs, shaped.font = run.font := by
  induction lines with
  | nil => cases hd
  | cons line lines ih =>
    intro run hrun
    rcases List.mem_cons.1 hd with rfl | hd
    · cases hk
    · rcases List.mem_append.1 hd with hd | hd
      · obtain ⟨g, hg, rfl⟩ := mem_textsOutline hd
        obtain rfl := FragmentKind.text.inj hk
        obtain ⟨shaped, hshaped, rfl⟩ := List.mem_map.1 hrun
        exact ⟨line, List.mem_cons_self, shaped, mem_groupRuns g hg shaped hshaped, rfl⟩
      · obtain ⟨other, hother, h⟩ := ih hd run hrun
        exact ⟨other, List.mem_cons_of_mem _ hother, h⟩

end Inline

namespace Block

/-- The texts of an outline are in fonts of the shaper. -/
theorem text_of_outline (Γ : FloatOps) (shape : Shaper) (tree : BoxTree) (document : Document) (cbWidth : Au)
    (cbHeight : Option Au) (F : Forest BoxId) {d : FragmentData} {runs : List GlyphRun}
    (hd : d ∈ (outline Γ shape tree document cbWidth cbHeight F).preorder) (hk : d.kind = .text runs) :
    ∀ run ∈ runs, shape.Uses run.font := by
  induction F generalizing cbWidth cbHeight with
  | nil => cases hd
  | cons id K R ihK ihR =>
    rw [outline] at hd
    cases hb : tree.get id with
    | none =>
      rw [hb] at hd
      exact ihR cbWidth cbHeight hd
    | some b =>
      rw [hb] at hd
      rcases List.mem_cons.1 hd with rfl | hd
      · rcases blockKind_eq b.kind with h | h <;> rw [blockData, h] at hk <;> cases hk
      · rcases List.mem_append.1 hd with hd | hd
        · split at hd
          · exact ihK _ _ hd
          · intro run hrun
            obtain ⟨line, hline, shaped, hshaped, hfont⟩ := Inline.mem_linesOutline hd hk run hrun
            unfold shapedLines at hline
            split at hline
            · cases hline
            · split at hline
              · rename_i lines hlines
                exact ⟨_, _, _, lines, hlines, line, hline, shaped, hshaped, hfont⟩
              · cases hline
        · exact ihR cbWidth cbHeight hd

theorem HasOutline.text {fragments : FragmentTree} {cbWidth : Au} {cbHeight : Option Au} {F : Forest BoxId}
    (ho : HasOutline fragments (outline Γ shape tree document cbWidth cbHeight F)) {id : FragmentId} {f : Fragment}
    {runs : List GlyphRun} (hf : fragments.get id = some f) (hk : f.kind = .text runs) : ∀ run ∈ runs, shape.Uses run.font := by
  obtain ⟨style, -, hentry⟩ := ho.entry_of_get hf
  have hd := ho.stored.mem_preorder.2 ⟨id, ho.mem_ids_iff.2 ⟨f, hf⟩, _, hentry⟩
  have hunplaced : f.kind.unplaced = .text (runs.map GlyphRun.unplaced) := by
    rw [hk]
    rfl
  intro run hrun
  exact text_of_outline Γ shape tree document cbWidth cbHeight F hd hunplaced run.unplaced (List.mem_map_of_mem hrun)

/-! ## Errors -/

/-- The errors so far are of the shaper. -/
def ErrorsFrom (shape : Shaper) (error : Option LayoutError) : Prop := ∀ e, error = some e → shape.Fails e

theorem errorsFrom_none : ErrorsFrom shape none := by
  intro e he
  cases he

theorem layoutLeaf_errorsFrom (child : LayoutBox) (placement : ChildPlacement) (a : Arenas) {error : Option LayoutError}
    (h : ErrorsFrom shape error) : ErrorsFrom shape (layoutLeaf Γ shape tree document child placement a error).2.2 := by
  show ErrorsFrom shape (leafContent shape tree document child placement a error).2
  unfold leafContent
  split
  · exact h
  · cases hshape : shape (Inline.collectPieces tree document tree.len child.children true) child.style
      placement.model.contentWidth with
    | ok lines =>
      simp only [Inline.layout, hshape]
      exact h
    | error e =>
      simp only [Inline.layout, hshape]
      intro e' he'
      cases error with
      | none =>
        obtain rfl := Option.some.inj he'
        exact ⟨_, _, _, hshape⟩
      | some first => exact h e' he'

theorem Advances.errorsFrom {s s' : LayoutState} (h : Advances Γ shape tree document s s') (hs : ErrorsFrom shape s.error) :
    ErrorsFrom shape s'.error := by
  cases h with
  | missing => exact hs
  | container => exact hs
  | @leaf top _ arenas _ memo error _ id child _ _ _ _ _ hl =>
    have herror := @layoutLeaf_errorsFrom Γ shape tree document child (placeChild Γ tree id child.style top.next memo).1 arenas
      error hs
    rw [hl] at herror
    exact herror
  | finish => exact hs

/-- An error of layout is one of the shaper. -/
theorem error_of_run {fragments : FragmentTree} {error : Option LayoutError}
    (h : run Γ shape tree document viewport = .some (fragments, error)) : ErrorsFrom shape error := by
  unfold run at h
  cases hroot : tree.get tree.root with
  | none =>
    rw [hroot] at h
    obtain ⟨-, rfl⟩ := Prod.mk.inj (Part.some_injective h)
    exact errorsFrom_none
  | some root =>
    simp only [hroot] at h
    split at h
    · obtain ⟨s, -, hs, hr⟩ := While.loop_invariant (I := fun s : LayoutState => ErrorsFrom shape s.error)
        (fun s s' hs hb => (advances_of_runStep hb).errorsFrom hs) errorsFrom_none h
      have := error_of_runStep hr
      dsimp only at this
      rwa [this]
    · obtain ⟨-, rfl⟩ := Prod.mk.inj (Part.some_injective h)
      exact layoutLeaf_errorsFrom _ _ _ errorsFrom_none

/-- Layout returns: an error of the shaper, or a tree whose texts are in fonts of the shaper. -/
theorem layout_cases (Γ : FloatOps) (shape : Shaper) (doc : StyledDocument) (viewport : Size) :
    (∃ e, layout Γ shape doc viewport = .some (.error e) ∧ shape.Fails e) ∨
    ∃ fragments F, layout Γ shape doc viewport = .some (.ok fragments) ∧ fragments.viewport = viewport ∧
      HasOutline fragments F ∧ ∀ id f runs, fragments.get id = some f → f.kind = .text runs → ∀ run ∈ runs, shape.Uses run.font := by
  obtain ⟨tree, htree⟩ : ∃ tree, BoxGen.build Γ doc = .some tree := by
    rcases BoxGen.build_cases Γ doc with h | ⟨tree, h, -⟩
    · exact ⟨_, h⟩
    · exact ⟨tree, h⟩
  obtain ⟨B, hroots, hB⟩ := (BoxGen.invariant_of_build htree).exists_forest
  obtain ⟨-, root, hroot, -⟩ := BoxGen.build_made htree hroots hB
  obtain ⟨fragments, error, hrun, hviewport, ho⟩ := run_outline Γ shape doc.document viewport hroot hroots hB
  have hfails := error_of_run hrun
  rw [layout, htree, Part.bind_eq_bind, Part.bind_some, hrun, Part.bind_eq_bind, Part.bind_some]
  cases error with
  | some e => exact .inl ⟨e, rfl, hfails e rfl⟩
  | none => exact .inr ⟨fragments, _, rfl, hviewport, ho, fun id f runs hf hk => ho.text hf hk⟩

end Block

/-! ## Items -/

namespace Paint

variable {fragments : FragmentTree}

/-- The texts that are painted for a forest are those of its fragments. -/
theorem text_of_paintForest {suppressed : Option FragmentId} {viewport : InflatedViewport} {F : Forest FragmentId} {run : GlyphRun}
    (h : .text run ∈ paintForest Γ fragments suppressed viewport F) :
    ∃ id f runs, fragments.get id = some f ∧ f.kind = .text runs ∧ run ∈ runs := by
  induction F with
  | nil => cases h
  | cons id K R ihK ihR =>
    rw [paintForest] at h
    rcases List.mem_append.1 h with h | h
    · cases hf : fragments.get id with
      | none =>
        rw [hf] at h
        cases h
      | some f =>
        rw [hf] at h
        rcases List.mem_append.1 h with h | h
        · unfold ownItems at h
          split at h
          · split at h
            · rcases List.mem_append.1 h with h | h
              · unfold backgroundItems at h
                split at h <;> simp at h
              · unfold borderItems at h
                split at h <;> simp at h
            · cases h
          · cases h
          · cases h
          · rename_i runs hk
            obtain ⟨run', hrun', heq⟩ := List.mem_map.1 h
            obtain rfl := DisplayItem.text.inj heq
            exact ⟨id, f, runs, hf, hk, List.mem_of_mem_filter hrun'⟩
        · split at h
          · rcases List.mem_cons.1 h with h | h
            · cases h
            · rcases List.mem_append.1 h with h | h
              · exact ihK h
              · simp at h
          · exact ihK h
    · exact ihR h

/-- The painter returns, and the texts of its list are those of fragments. -/
theorem text_of_build {F : Forest FragmentData} (ho : Block.HasOutline fragments F) (hv : Widenable fragments.viewport)
    (document : Document) :
    ∃ dl, build Γ fragments document = .some dl ∧ ∀ run, .text run ∈ dl.items →
      ∃ id f runs, fragments.get id = some f ∧ f.kind = .text runs ∧ run ∈ runs := by
  have hr : ∀ id ∈ (Postorder.ids FragmentId.mk 0 F).preorder, ∃ f, fragments.get id = some f :=
    fun id hid => ho.mem_ids_iff.1 hid
  refine ⟨_, build_eq_of_forest document ho.root.symm ho.follows hr (by rw [Postorder.size_ids, ho.len])
    (Or.inl hv), ?_⟩
  intro run hrun
  rcases List.mem_append.1 hrun with hrun | hrun
  · unfold canvasItems at hrun
    split at hrun
    · split at hrun <;> simp at hrun
    · cases hrun
  · exact text_of_paintForest hrun

end Paint

end ChromeLight
