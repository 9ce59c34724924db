import ChromeLight.Lemmas.Overflow
import ChromeLight.Theorems.Relative

/-!
# What is clipped to what

The painter clips the children of a fragment by the fragment's style alone. In a layout (`Layered`) the fragments that clip
are the blocks of elements with `overflow: hidden`, and the lines of such blocks, which have their style. So everything is
clipped to the padding boxes of the elements around it, except for the text of an element with `overflow: hidden`, which is
in addition clipped to its line (`clips_iff`).
-/

namespace ChromeLight

open Forest (Ancestors)

namespace Paint

variable {Γ : FloatOps} {shape : Shaper} {doc : StyledDocument} {tree : FragmentTree}

/-! ## Open clips -/

/-- The open clips after one more item, outermost first. -/
def clipStep (clips : List Rect) : DisplayItem → List Rect
  | .pushClip rect => clips ++ [rect]
  | .popClip => clips.dropLast
  | .rect .. | .border .. | .text .. => clips

/-- The clips open after some items, outermost first. -/
def openClips (items : List DisplayItem) : List Rect := items.foldl clipStep []

/-- The clip of a fragment, by its style. -/
def styleClip (Γ : FloatOps) (tree : FragmentTree) (id : FragmentId) : Option Rect :=
  (tree.get id).bind fun f =>
    if (resolveStyle Γ tree f.style).overflow = .hidden then
      some ((InflatedViewport.new (viewportBounds tree)).part f.paddingBox)
    else none

/-- A fragment with hidden overflow clips to its padding box. -/
theorem styleClip_eq_some {id : FragmentId} {f : Fragment} (hf : tree.get id = some f)
    (hover : (resolveStyle Γ tree f.style).overflow = .hidden) :
    styleClip Γ tree id = some ((InflatedViewport.new (viewportBounds tree)).part f.paddingBox) := by
  rw [styleClip, hf, Option.bind_some, if_pos hover]

/-- A fragment with visible overflow does not clip. -/
theorem styleClip_eq_none {id : FragmentId} {f : Fragment} (hf : tree.get id = some f)
    (hover : (resolveStyle Γ tree f.style).overflow ≠ .hidden) : styleClip Γ tree id = none := by
  rw [styleClip, hf, Option.bind_some, if_neg hover]

/-- The padding box of a block whose element has `overflow: hidden`, as far as it is in the widened viewport. -/
def elementClip (doc : StyledDocument) (tree : FragmentTree) (id : FragmentId) : Option Rect :=
  (tree.get id).bind fun f =>
    if f.kind = .block ∧ f.node.map doc.overflow = some .hidden then
      some ((InflatedViewport.new (viewportBounds tree)).part f.paddingBox)
    else none

/-- Whenever the painter is about to emit the items of a fragment, the open clips are those of the elements around it with
`overflow: hidden`, outermost first. -/
def ClipsToElements (Γ : FloatOps) (doc : StyledDocument) (tree : FragmentTree) : Prop :=
  ∀ canvas, canvasBackground Γ tree doc.document = .some canvas → ∀ id fragment stack remaining items,
    tree.get id = some fragment →
    While.Steps (walkStep Γ tree canvas.suppressedFragment (.new (viewportBounds tree)))
      (walkStart tree (canvasItems tree canvas)) { stack := .fragment id :: stack, remaining := remaining + 1, items } →
    ownItems fragment (resolveStyle Γ tree fragment.style) (canvas.suppressedFragment = some id)
      (.new (viewportBounds tree)) ≠ [] →
    ∀ path, Ancestors tree.kids tree.root id path → openClips items = path.filterMap (elementClip doc tree)

/-! ## The walk -/

/-- The stack of the walk and the open clips: a closing for each clip, and above it the fragments whose ancestors have the
clips open there. -/
inductive StackClips (Γ : FloatOps) (tree : FragmentTree) : List Frame → List Rect → Prop where
  | nil : StackClips Γ tree [] []
  | popClip {stack : List Frame} {clips : List Rect} (rect : Rect) (hs : StackClips Γ tree stack clips) :
      StackClips Γ tree (.popClip :: stack) (clips ++ [rect])
  | fragment {id : FragmentId} {stack : List Frame} {path : List FragmentId} (ha : Ancestors tree.kids tree.root id path)
      (hs : StackClips Γ tree stack (path.filterMap (styleClip Γ tree))) :
      StackClips Γ tree (.fragment id :: stack) (path.filterMap (styleClip Γ tree))

/-- The children of a fragment are under its clips. -/
theorem StackClips.fragments {stack : List Frame} {path children : List FragmentId}
    (hs : StackClips Γ tree stack (path.filterMap (styleClip Γ tree)))
    (ha : ∀ c ∈ children, Ancestors tree.kids tree.root c path) :
    StackClips Γ tree (children.map .fragment ++ stack) (path.filterMap (styleClip Γ tree)) := by
  induction children with
  | nil => exact hs
  | cons c children ih =>
    exact .fragment (ha c List.mem_cons_self) (ih fun x hx => ha x (List.mem_cons_of_mem _ hx))

/-- The clips that are open are those of the ancestors. -/
theorem StackClips.top {id : FragmentId} {stack : List Frame} {clips : List Rect}
    (h : StackClips Γ tree (.fragment id :: stack) clips) :
    ∃ path, Ancestors tree.kids tree.root id path ∧ clips = path.filterMap (styleClip Γ tree) := by
  cases h with
  | fragment ha _ => exact ⟨_, ha, rfl⟩

/-- The clips that are open after more items. -/
theorem openClips_append (items more : List DisplayItem) : openClips (items ++ more) = more.foldl clipStep (openClips items) :=
  List.foldl_append

/-- Items that are no clips open and close nothing. -/
theorem openClips_plain (items : List DisplayItem) {more : List DisplayItem} (h : ∀ item ∈ more, clipBracket item = none) :
    openClips (items ++ more) = openClips items := by
  rw [openClips_append]
  generalize openClips items = clips
  induction more with
  | nil => rfl
  | cons item more ih =>
    have hitem : clipStep clips item = clips := by
      have := h item List.mem_cons_self
      cases item with
      | pushClip => cases this
      | popClip => cases this
      | _ => rfl
    rw [List.foldl_cons, hitem]
    exact ih fun x hx => h x (List.mem_cons_of_mem _ hx)

/-- Every iteration keeps the stack and the open clips matched. -/
theorem StackClips.step {suppressed : Option FragmentId} {s s' : WalkState}
    (h : StackClips Γ tree s.stack (openClips s.items))
    (hs : walkStep Γ tree suppressed (.new (viewportBounds tree)) s = .inl s') :
    StackClips Γ tree s'.stack (openClips s'.items) := by
  rcases walkStep_inl hs with ⟨stack, hst, rfl⟩ | ⟨id, stack, remaining, hst, -, -, rfl⟩ |
    ⟨id, stack, remaining, fragment, hst, -, hg, -, rfl⟩
  · rw [hst] at h
    generalize hclips : openClips s.items = clips at h
    cases h with
    | popClip rect hs =>
      have hpop : openClips (s.items ++ [.popClip]) = (openClips s.items).dropLast := openClips_append _ _
      simp only [hpop, hclips, List.dropLast_concat]
      exact hs
  · rw [hst] at h
    generalize hclips : openClips s.items = clips at h
    cases h with
    | fragment ha hs => exact hclips ▸ hs
  · rw [hst] at h
    generalize hclips : openClips s.items = clips at h
    cases h with
    | @fragment _ _ path ha hs =>
      have hkids : ∀ c ∈ fragment.children, Ancestors tree.kids tree.root c (path ++ [id]) :=
        fun c hc => ha.child ((kids_eq hg).symm ▸ hc)
      simp only [visit]
      -- the clip of the fragment itself, and the closing for it
      have hinside : openClips (s.items ++ ownItems fragment (resolveStyle Γ tree fragment.style) (suppressed = some id)
          (.new (viewportBounds tree)) ++ clipItems fragment (resolveStyle Γ tree fragment.style) (.new (viewportBounds tree)))
          = (path ++ [id]).filterMap (styleClip Γ tree) ∧
          StackClips Γ tree (clipFrames (resolveStyle Γ tree fragment.style) ++ stack)
            ((path ++ [id]).filterMap (styleClip Γ tree)) := by
        rw [openClips_append, openClips_plain _ (clipBracket_ownItems _ _ _ _), hclips, List.filterMap_append]
        by_cases hover : (resolveStyle Γ tree fragment.style).overflow = .hidden
        · simp only [clipItems, clipFrames, if_pos hover, List.filterMap_cons, List.filterMap_nil, styleClip_eq_some hg hover]
          exact ⟨rfl, .popClip _ hs⟩
        · simp only [clipItems, clipFrames, if_neg hover, List.filterMap_cons, List.filterMap_nil, styleClip_eq_none hg hover,
            List.append_nil, List.nil_append]
          exact ⟨rfl, hs⟩
      rw [hinside.1]
      exact hinside.2.fragments hkids

/-- In every round the open clips are those of the ancestors. -/
theorem stackClips_of_steps {suppressed : Option FragmentId} (canvas : CanvasBackground) {s : WalkState}
    (hs : While.Steps (walkStep Γ tree suppressed (.new (viewportBounds tree))) (walkStart tree (canvasItems tree canvas)) s) :
    StackClips Γ tree s.stack (openClips s.items) := by
  refine hs.invariant (I := fun s => StackClips Γ tree s.stack (openClips s.items)) (fun _ _ h hb => h.step hb) ?_
  have hopen : openClips (canvasItems tree canvas) = [] := openClips_plain [] (clipBracket_canvasItems tree canvas)
  simp only [walkStart, hopen]
  exact .fragment .root .nil

/-- The walk visits every fragment of a forest that its counter covers. -/
theorem walk_visits (suppressed : Option FragmentId) {viewport : InflatedViewport} (hp : viewport.Proper) (F : Forest FragmentId)
    (hF : F.Follows tree.kids) (hr : ∀ id ∈ F.preorder, ∃ fragment, tree.get id = some fragment) {id : FragmentId}
    (hid : id ∈ F.preorder) (stack : List Frame) (remaining : Nat) (items : List DisplayItem) :
    ∃ stack' remaining' items', While.Steps (walkStep Γ tree suppressed viewport)
      { stack := F.roots.map .fragment ++ stack, remaining := F.size + remaining, items }
      { stack := .fragment id :: stack', remaining := remaining' + 1, items := items' } := by
  induction F generalizing stack remaining items with
  | nil => cases hid
  | cons a K R ihK ihR =>
    obtain ⟨hK, hK', hR'⟩ := hF
    obtain ⟨fragment, hg⟩ := hr a List.mem_cons_self
    have hrK : ∀ x ∈ K.preorder, ∃ fragment, tree.get x = some fragment := fun x hx =>
      hr x (List.mem_cons_of_mem _ (List.mem_append_left _ hx))
    have hrR : ∀ x ∈ R.preorder, ∃ fragment, tree.get x = some fragment := fun x hx =>
      hr x (List.mem_cons_of_mem _ (List.mem_append_right _ hx))
    have hsize : (Forest.cons a K R).size + remaining = K.size + (R.size + remaining) + 1 := by
      simp only [Forest.size]
      omega
    rcases List.mem_cons.1 hid with rfl | hid
    · rw [hsize]
      exact ⟨_, _, _, While.Steps.refl _⟩
    · rcases List.mem_append.1 hid with hid | hid
      · obtain ⟨stack', remaining', items', hs⟩ := ihK hK' hrK hid
          (clipFrames (resolveStyle Γ tree fragment.style) ++ (R.roots.map .fragment ++ stack)) (R.size + remaining)
          (items ++ ownItems fragment (resolveStyle Γ tree fragment.style) (suppressed = some a) viewport ++
            clipItems fragment (resolveStyle Γ tree fragment.style) viewport)
        refine ⟨stack', remaining', items', ?_⟩
        rw [hsize]
        refine While.Steps.head (walkStep_visit hg (Or.inl hp)) ?_
        rw [hK, kids_eq hg] at hs
        exact hs
      · have hone : (Forest.cons a K .nil).size + (R.size + remaining) = (Forest.cons a K R).size + remaining := by
          simp only [Forest.size]
          omega
        have htree := walk_forest (Γ := Γ) suppressed viewport (.cons a K .nil) ⟨hK, hK', trivial⟩ (fun x hx => by
          rcases List.mem_cons.1 hx with rfl | hx
          · exact ⟨fragment, hg⟩
          · rw [Forest.preorder, List.append_nil] at hx
            exact hrK x hx) (Or.inl hp) (R.roots.map .fragment ++ stack) (R.size + remaining) items
        rw [hone] at htree
        obtain ⟨stack', remaining', items', hs⟩ := ihR hR' hrR hid stack remaining
          (items ++ paintForest Γ tree suppressed viewport (.cons a K .nil))
        exact ⟨stack', remaining', items', htree.trans hs⟩

/-! ## Layouts -/

section

variable (hl : Block.Layered Γ doc tree)
include hl

/-- A block clips as its element does. -/
theorem styleClip_eq {id : FragmentId} {f : Fragment} (hf : tree.get id = some f)
    (hk : f.kind = .block ∨ f.kind = .anonymousBlock) : styleClip Γ tree id = elementClip doc tree id := by
  rcases hk with hk | hk
  · obtain ⟨n, hn, hover⟩ := hl.block id f hf hk
    simp only [styleClip, elementClip, hf, Option.bind_some, hover, hk, hn, Option.map_some, Option.some.injEq, true_and]
  · have hover := hl.anonymous id f hf hk
    simp only [styleClip, elementClip, hf, Option.bind_some, hover, hk, reduceCtorEq, false_and, if_false]

/-- Around a fragment that is not text only elements clip. -/
theorem clips_eq {id : FragmentId} {path : List FragmentId} (ha : Ancestors tree.kids tree.root id path) {f : Fragment}
    (hf : tree.get id = some f) (hk : ∀ runs, f.kind ≠ .text runs) :
    path.filterMap (styleClip Γ tree) = path.filterMap (elementClip doc tree) := by
  induction ha generalizing f with
  | root => rfl
  | child hp hc ih =>
    obtain ⟨g, hg, -, ⟨hblock, -⟩ | ⟨-, runs, htext⟩⟩ := hl.parent_cases hc hf
    · have hg' : ∀ runs, g.kind ≠ .text runs := by
        intro runs htext
        rcases hblock with h | h <;> cases h.symm.trans htext
      rw [List.filterMap_append, List.filterMap_append, ih hg hg']
      simp only [List.filterMap_cons, List.filterMap_nil, styleClip_eq hl hg hblock]
    · exact absurd htext (hk runs)

/-- A text is in a line, and the line in a block. -/
theorem block_of_text {id : FragmentId} {path : List FragmentId} (ha : Ancestors tree.kids tree.root id path) {f : Fragment}
    {runs : List GlyphRun} (hf : tree.get id = some f) (hk : f.kind = .text runs) :
    ∃ above b bf l lf, path = above ++ [l] ∧ Ancestors tree.kids tree.root l above ∧ tree.get b = some bf ∧
      (bf.kind = .block ∨ bf.kind = .anonymousBlock) ∧ l ∈ bf.children ∧ tree.get l = some lf ∧ lf.kind = .line ∧
      id ∈ lf.children ∧ resolveStyle Γ tree lf.style = resolveStyle Γ tree bf.style := by
  have hroot : ∀ {g}, tree.get tree.root = some g → g.kind = .block ∨ g.kind = .anonymousBlock := by
    intro g hg
    obtain ⟨f0, hf0, h⟩ := hl.root
    obtain rfl := Option.some.inj (hf0.symm.trans hg)
    exact h
  cases ha with
  | root => rcases hroot hf with h | h <;> cases h.symm.trans hk
  | @child l _ path hp hc =>
    obtain ⟨lf, hlf, hmem, ⟨-, h⟩ | ⟨hline, -⟩⟩ := hl.parent_cases hc hf
    · rw [hk] at h
      rcases h with h | h | ⟨h, -⟩ <;> cases h
    · cases hp with
      | root => rcases hroot hlf with h | h <;> cases h.symm.trans hline
      | @child b _ above hpb hcb =>
        obtain ⟨bf, hbf, hmemb, ⟨hblock, h⟩ | ⟨-, runs', h⟩⟩ := hl.parent_cases hcb hlf
        · rw [hline] at h
          rcases h with h | h | ⟨-, hstyle⟩
          · cases h
          · cases h
          · exact ⟨above ++ [b], b, bf, l, lf, rfl, .child hpb hcb, hbf, hblock, hmemb, hlf, hline, hmem, hstyle⟩
        · cases hline.symm.trans h

/-- The clips around a text are those of the elements, and its line's. -/
theorem clips_text {above : List FragmentId} {b l : FragmentId} {bf lf : Fragment}
    (ha : Ancestors tree.kids tree.root l above) (hbf : tree.get b = some bf)
    (hblock : bf.kind = .block ∨ bf.kind = .anonymousBlock) (hlf : tree.get l = some lf) (hline : lf.kind = .line)
    (hstyle : resolveStyle Γ tree lf.style = resolveStyle Γ tree bf.style) :
    (above ++ [l]).filterMap (styleClip Γ tree) = (above ++ [l]).filterMap (elementClip doc tree) ↔
      elementClip doc tree b = none := by
  have hl' : ∀ runs, lf.kind ≠ .text runs := fun runs h => by cases hline.symm.trans h
  have hnone : elementClip doc tree l = none := by
    simp only [elementClip, hlf, Option.bind_some, hline, reduceCtorEq, false_and, if_false]
  have hsome : styleClip Γ tree l = none ↔ elementClip doc tree b = none := by
    rw [← styleClip_eq hl hbf hblock]
    simp only [styleClip, hlf, hbf, Option.bind_some, hstyle]
    split <;> simp
  rw [List.filterMap_append, List.filterMap_append, clips_eq hl ha hlf hl', ← hsome]
  simp only [List.filterMap_cons, List.filterMap_nil, hnone, List.append_cancel_left_eq]
  cases styleClip Γ tree l <;> simp

end

/-- Whether the painter emits a run that it visits. -/
def emitsRun (tree : FragmentTree) (run : GlyphRun) : Bool :=
  !run.glyphs.isEmpty && InflatedViewport.containsPoint (.new (viewportBounds tree)) run.origin

/-- No element with `overflow: hidden` has a line of its own with a run that is painted. -/
def NoOwnText (doc : StyledDocument) (tree : FragmentTree) : Prop :=
  ∀ b bf, tree.get b = some bf → bf.kind = .block → bf.node.map doc.overflow = some .hidden →
    ∀ l ∈ bf.children, ∀ lf, tree.get l = some lf → lf.kind = .line →
      ∀ t ∈ lf.children, ∀ f runs, tree.get t = some f → f.kind = .text runs → ∀ run ∈ runs, emitsRun tree run = false

/-- A text paints exactly if one of its runs is not culled. -/
theorem ownItems_text {f : Fragment} {runs : List GlyphRun} (hk : f.kind = .text runs) (style : LayoutStyle) (suppress : Bool) :
    ownItems f style suppress (.new (viewportBounds tree)) ≠ [] ↔ ∃ run ∈ runs, emitsRun tree run = true := by
  simp only [ownItems, hk, ne_eq, List.map_eq_nil_iff, List.filter_eq_nil_iff, emitsRun]
  simp

section

variable {F : Forest FragmentData} (ho : Block.HasOutline tree F) (hl : Block.Layered Γ doc tree)
include ho hl

/-- Where lines clip nothing, no text is under a clip of its line. -/
theorem noOwnText_of_clips (hclips : ClipsToElements Γ doc tree) : NoOwnText doc tree := by
  intro b bf hbf hkind hhidden l hlc lf hlf hline t ht f runs hf hk run hrun
  by_contra hemit
  have hp : (InflatedViewport.new (viewportBounds tree)).Proper := by
    simp only [emitsRun, InflatedViewport.containsPoint, Bool.not_eq_false, Bool.and_eq_true, decide_eq_true_eq, ge_iff_le,
      Au.le_iff] at hemit
    simp only [InflatedViewport.Proper, Au.le_iff]
    omega
  obtain ⟨canvas, hc⟩ := canvasBackground_terminates Γ tree doc.document
  -- the walk visits the text, with the ancestors of its line and the line above it
  obtain ⟨above, ha⟩ := Forest.exists_ancestors (ho.reaches hbf)
  have hal := ha.child (c := l) (kids_eq hbf ▸ hlc)
  have hat := hal.child (c := t) (kids_eq hlf ▸ ht)
  obtain ⟨stack, remaining, items, hs⟩ := walk_visits (Γ := Γ) canvas.suppressedFragment hp _
    ho.follows (fun id hid => ho.mem_ids_iff.1 hid) (ho.mem_ids_iff.2 ⟨f, hf⟩) [] 0 (canvasItems tree canvas)
  rw [← ho.root, Postorder.size_ids, ← ho.len] at hs
  have hopen := hclips canvas hc t f stack remaining items hf hs
    ((ownItems_text hk _ _).2 ⟨run, hrun, by simpa using hemit⟩) _ hat
  obtain ⟨path, hat', hstack⟩ := (stackClips_of_steps canvas hs).top
  obtain rfl := hat.unique ho.wellFormed.uniqueParents ho.root_not_child hat'
  rw [hstack] at hopen
  have hstyle : resolveStyle Γ tree lf.style = resolveStyle Γ tree bf.style := by
    obtain ⟨bf', hbf', -, ⟨-, h⟩ | ⟨h, -⟩⟩ := hl.parent_cases (kids_eq hbf ▸ hlc) hlf
    · obtain rfl := Option.some.inj (hbf.symm.trans hbf')
      rw [hline] at h
      rcases h with h | h | ⟨-, h⟩
      · cases h
      · cases h
      · exact h
    · obtain rfl := Option.some.inj (hbf.symm.trans hbf')
      cases hkind.symm.trans h
  have hnone := (clips_text hl hal hbf (.inl hkind) hlf hline hstyle).1 hopen
  simp only [elementClip, hbf, Option.bind_some, hkind, hhidden, and_self, if_true, reduceCtorEq] at hnone

/-- Where no text is under a clip of its line, lines clip nothing. -/
theorem clips_of_noOwnText (hno : NoOwnText doc tree) : ClipsToElements Γ doc tree := by
  intro canvas hc id f stack remaining items hf hs hown path ha
  obtain ⟨path', ha', hstack⟩ := (stackClips_of_steps canvas hs).top
  obtain rfl := ha.unique ho.wellFormed.uniqueParents ho.root_not_child ha'
  rw [hstack]
  by_cases htext : ∃ runs, f.kind = .text runs
  · obtain ⟨runs, hk⟩ := htext
    obtain ⟨above, b, bf, l, lf, rfl, hal, hbf, hblock, hlc, hlf, hline, ht, hstyle⟩ := block_of_text hl ha hf hk
    refine (clips_text hl hal hbf hblock hlf hline hstyle).2 ?_
    obtain ⟨run, hrun, hemit⟩ := (ownItems_text hk _ _).1 hown
    by_contra hclip
    have hhidden : bf.kind = .block ∧ bf.node.map doc.overflow = some .hidden := by
      by_contra hn
      exact hclip (by simp only [elementClip, hbf, Option.bind_some, if_neg hn])
    rw [hno b bf hbf hhidden.1 hhidden.2 l hlc lf hlf hline id ht f runs hf hk run hrun] at hemit
    cases hemit
  · exact clips_eq hl ha hf fun runs hk => htext ⟨runs, hk⟩

end

/-- In the layout of a styled document everything is clipped to the padding boxes of the elements around it, and to nothing
else, exactly if no element with `overflow: hidden` has painted text of its own. -/
theorem clips_iff {viewport : Size} (h : Block.layout Γ shape doc viewport = .some (.ok tree)) :
    ClipsToElements Γ doc tree ↔ NoOwnText doc tree := by
  obtain ⟨⟨F, ho⟩, hl, -⟩ := Block.layout_outline h
  exact ⟨noOwnText_of_clips ho hl, clips_of_noOwnText ho hl⟩

/-! ## A letter in a block that clips -/

/-- A style with hidden overflow. -/
def hiddenStyle : LayoutStyle := { Block.marginStyle 0 0 with overflow := .hidden }

/-- Its box. -/
theorem build_hidden : BoxGen.build .sample (Block.letter hiddenStyle) = .some (Block.letterTree hiddenStyle) :=
  BoxGen.build_of_run 12 (.fromIndex 1) (by decide) (by decide) (by decide)

/-- Its layout. -/
theorem layout_hidden : Block.layout .sample Block.oneGlyph (Block.letter hiddenStyle) Block.window
    = .some (.ok (Block.letterFragments hiddenStyle .zero)) :=
  Block.layout_of_run build_hidden (Block.run_letterTree (by decide) (by decide +kernel))

/-- The theorem at the layout of that document. -/
theorem clips_iff_hidden : Block.layout .sample Block.oneGlyph (Block.letter hiddenStyle) Block.window
      = .some (.ok (Block.letterFragments hiddenStyle .zero)) ∧
    (ClipsToElements .sample (Block.letter hiddenStyle) (Block.letterFragments hiddenStyle .zero) ↔
      NoOwnText (Block.letter hiddenStyle) (Block.letterFragments hiddenStyle .zero)) :=
  ⟨layout_hidden, clips_iff layout_hidden⟩

/-- The letter of a block with `overflow: hidden` is clipped twice, to the block's padding box and to its line. -/
theorem clips_false : ¬∀ (Γ : FloatOps) (shape : Shaper) (doc : StyledDocument) (viewport : Size) (tree : FragmentTree),
    Block.layout Γ shape doc viewport = .some (.ok tree) → ClipsToElements Γ doc tree := by
  intro h
  obtain ⟨⟨F, ho⟩, hl, -⟩ := Block.layout_outline layout_hidden
  have hno := noOwnText_of_clips ho hl (h _ _ _ _ _ layout_hidden) ⟨2⟩ _ rfl rfl (by decide) ⟨1⟩ List.mem_cons_self _ rfl rfl
    ⟨0⟩ List.mem_cons_self _ _ rfl rfl _ List.mem_cons_self
  revert hno
  decide

end Paint

end ChromeLight
