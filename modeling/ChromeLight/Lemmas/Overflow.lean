import ChromeLight.Lemmas.Outline
import ChromeLight.Theorems.Paint

/-!
# Which fragments clip

A fragment clips by its style, and its style comes from a box, whose style comes from an element. Box generation keeps the
`overflow` of an element on its box and gives anonymous blocks none (`build_shows_made`); layout gives a block's style
to the block and again to each of its lines, and texts have no children. So of the fragments with children (`Layered`) those
that clip are the blocks of elements with `overflow: hidden` and the lines of such blocks.
-/

namespace ChromeLight

/-- The `overflow` of a node's element. -/
def StyledDocument.overflow (doc : StyledDocument) (n : NodeId) : Overflow :=
  ((doc.computed n).map LayoutStyle.overflow).getD .visible

/-! ## Boxes -/

namespace BoxGen

variable {Γ : FloatOps} {doc : StyledDocument} {document : Document}

/-- A box has the `overflow` of its element; one that stands for no element clips nothing. -/
def KeepsOverflow (doc : StyledDocument) (d : BoxData) : Prop :=
  match d.kind with
  | .block | .inline => ∃ n, d.node = some n ∧ d.style.overflow = doc.overflow n
  | .anonymousBlock => d.style.overflow = .visible
  | .inlineText _ | .anonymousInline | .lineBreak => True

/-- A box as box generation makes it: with the `overflow` of its element, and never an anonymous inline one. -/
def Made (doc : StyledDocument) (d : BoxData) : Prop := KeepsOverflow doc d ∧ d.kind ≠ .anonymousInline

theorem mem_endRun {style : LayoutStyle} {run : Forest BoxData} {d : BoxData}
    (h : d ∈ (endRun Γ document style run).preorder) :
    d ∈ run.preorder ∨ d = ⟨none, .anonymousBlock, .anonymousBlock Γ style⟩ := by
  unfold endRun at h
  split at h
  · cases h
  · rcases List.mem_cons.1 h with rfl | h
    · exact .inr rfl
    · rw [Forest.preorder, List.append_nil] at h
      exact .inl h

theorem mem_wrapLoop {style : LayoutStyle} {run L : Forest BoxData} {d : BoxData}
    (h : d ∈ (wrapLoop Γ document style run L).preorder) :
    d ∈ run.preorder ∨ d ∈ L.preorder ∨ d = ⟨none, .anonymousBlock, .anonymousBlock Γ style⟩ := by
  induction L generalizing run with
  | nil => exact (mem_endRun h).imp_right .inr
  | cons e K R _ ihR =>
    rw [wrapLoop] at h
    simp only [Forest.preorder, List.mem_cons, List.mem_append]
    split at h
    · rw [Forest.preorder_append, List.mem_append] at h
      rcases h with h | h
      · exact (mem_endRun h).imp_right .inr
      · simp only [Forest.preorder, List.mem_cons, List.mem_append] at h
        rcases h with h | h | h
        · exact .inr (.inl (.inl h))
        · exact .inr (.inl (.inr (.inl h)))
        · rcases ihR h with h | h | h
          · cases h
          · exact .inr (.inl (.inr (.inr h)))
          · exact .inr (.inr h)
    · rcases ihR h with h | h | h
      · simp only [Forest.preorder_append, Forest.preorder, List.mem_cons, List.mem_append, List.append_nil] at h
        rcases h with h | h | h
        · exact .inl h
        · exact .inr (.inl (.inl h))
        · exact .inr (.inl (.inr (.inl h)))
      · exact .inr (.inl (.inr (.inr h)))
      · exact .inr (.inr h)

/-- Wrapping only adds anonymous blocks. -/
theorem mem_wrapForest {style : LayoutStyle} {built : Forest BoxData} {d : BoxData}
    (h : d ∈ (wrapForest Γ document style built).preorder) :
    d ∈ built.preorder ∨ d = ⟨none, .anonymousBlock, .anonymousBlock Γ style⟩ := by
  unfold wrapForest at h
  split at h
  · rcases mem_wrapLoop h with h | h | h
    · cases h
    · exact .inl h
    · exact .inr h
  · exact .inl h

theorem containerForest_made {node : NodeId} {kind : ContainerKind} {style : LayoutStyle}
    {built rest : Forest BoxData} (hstyle : style.overflow = doc.overflow node)
    (hbuilt : ∀ d ∈ built.preorder, Made doc d) (hrest : ∀ d ∈ rest.preorder, Made doc d) :
    ∀ d ∈ (containerForest Γ document node kind style built rest).preorder, Made doc d := by
  intro d hd
  simp only [containerForest, Forest.preorder, List.mem_cons, List.mem_append] at hd
  rcases hd with rfl | hd | hd
  · have hover : (finalForest kind style built).2.overflow = doc.overflow node := by
      rw [← hstyle]
      unfold finalForest
      cases kind with
      | block => rfl
      | inline => simp only; split <;> rfl
    rcases finalForest_kind kind style built with h | h
    · simp only [Made, KeepsOverflow, h]
      exact ⟨⟨node, rfl, hover⟩, by simp⟩
    · simp only [Made, KeepsOverflow, h]
      exact ⟨⟨node, rfl, hover⟩, by simp⟩
  · rcases mem_wrapForest hd with hd | rfl
    · exact hbuilt d hd
    · exact ⟨rfl, by simp⟩
  · exact hrest d hd

theorem gen_made (D : Forest NodeId) (style : LayoutStyle) :
    ∀ d ∈ (gen Γ doc style D).preorder, Made doc d := by
  induction D generalizing style with
  | nil => exact fun d hd => absurd hd List.not_mem_nil
  | cons id K R ihK ihR =>
    intro d hd
    rw [gen] at hd
    cases hc : classifyChild Γ doc id style with
    | skip =>
      rw [hc] at hd
      exact ihR style d hd
    | leaf kind st =>
      rw [hc] at hd
      rcases List.mem_cons.1 hd with rfl | hd
      · rcases classifyChild_leaf hc with ⟨rfl, -⟩ | rfl <;> exact ⟨trivial, by simp⟩
      · exact ihR style d hd
    | container kind st =>
      rw [hc] at hd
      have hover : st.overflow = doc.overflow id := by
        rw [StyledDocument.overflow, (classifyChild_container hc).1]
        rfl
      exact containerForest_made hover (ihK st) (ihR style) d hd

/-- Whether a box of that kind may be laid out as a block. -/
def FlowKind (kind : BoxKind) : Prop := kind = .block ∨ kind = .inline ∨ kind = .anonymousBlock

/-- A box tree shows a forest whose boxes keep the `overflow` of their elements, from a root that may be laid out as a
block. -/
theorem build_shows_made {tree : BoxTree} (h : build Γ doc = .some tree) :
    ∃ G : Forest BoxData, Forest.Shows (entry tree.boxes) [tree.root] G ∧ (∀ d ∈ G.preorder, Made doc d) ∧
      ∀ d ∈ G.roots, FlowKind d.kind := by
  have hempty : build Γ doc = .some (emptyTree Γ []) → ∃ G : Forest BoxData,
      Forest.Shows (entry tree.boxes) [tree.root] G ∧ (∀ d ∈ G.preorder, Made doc d) ∧
        ∀ d ∈ G.roots, FlowKind d.kind := by
    intro he
    obtain rfl := Part.some_injective (h.symm.trans he)
    refine ⟨.cons ⟨none, .anonymousBlock, .initial Γ⟩ .nil .nil, Forest.Shows.single rfl Forest.shows_nil, ?_, ?_⟩
    · intro d hd
      obtain rfl := List.mem_singleton.1 hd
      exact ⟨rfl, by simp⟩
    · intro d hd
      obtain rfl := List.mem_singleton.1 hd
      exact .inr (.inr rfl)
  cases hroot : rootElement doc.document with
  | none => exact hempty (by unfold build; rw [hroot])
  | some root =>
    by_cases hshown : (rootStyle Γ doc root).display = .none
    · exact hempty (by unfold build; simp only [hroot, hshown, if_true])
    · obtain ⟨tree', D, hb, -, -, hshows, -⟩ := build_shows (Γ := Γ) hroot hshown
      obtain rfl := Part.some_injective (h.symm.trans hb)
      refine ⟨_, hshows, containerForest_made ?_ (gen_made D _) fun d hd => absurd hd List.not_mem_nil, ?_⟩
      · unfold rootStyle StyledDocument.overflow
        cases doc.computed root <;> rfl
      · intro d hd
        obtain rfl := List.mem_singleton.1 hd
        exact (finalForest_kind _ _ _).imp_right .inl

/-- In the forest of a box tree from its root, every box resolves and keeps the `overflow` of its element. -/
theorem build_made {tree : BoxTree} (h : build Γ doc = .some tree) {F : Forest BoxId} (hroots : F.roots = [tree.root])
    (hF : F.Follows tree.kids) :
    (∀ id ∈ F.preorder, ∃ b, tree.get id = some b ∧ Made doc b.data) ∧
      ∃ root, tree.get tree.root = some root ∧ FlowKind root.kind := by
  obtain ⟨G, hshows, hkeeps, hflow⟩ := build_shows_made h
  obtain ⟨I, hI, hfollows, hmap⟩ := hshows.exists_forest
  rw [kids_entry] at hfollows
  obtain rfl := hF.unique hfollows (hroots.trans hI.symm)
  have resolve : ∀ {id : BoxId} {d : BoxData}, (entry tree.boxes id).map Prod.fst = some d →
      ∃ b, tree.get id = some b ∧ b.data = d := by
    intro id d he
    obtain ⟨x, hx, rfl⟩ := Option.map_eq_some_iff.1 he
    obtain ⟨b, hb, rfl⟩ := Option.map_eq_some_iff.1 hx
    exact ⟨b, hb, rfl⟩
  constructor
  · intro id hid
    have hmem := congrArg Forest.preorder hmap
    rw [Forest.preorder_map, Forest.preorder_map] at hmem
    obtain ⟨d, hd, he⟩ := List.mem_map.1 (hmem ▸ List.mem_map_of_mem hid)
    obtain ⟨b, hb, rfl⟩ := resolve he.symm
    exact ⟨b, hb, hkeeps _ hd⟩
  · have hmem := congrArg Forest.roots hmap
    rw [Forest.roots_map, Forest.roots_map, hroots] at hmem
    obtain ⟨d, hd, he⟩ := List.mem_map.1 (hmem ▸ List.mem_map_of_mem List.mem_cons_self)
    obtain ⟨b, hb, rfl⟩ := resolve he.symm
    exact ⟨b, hb, hflow _ hd⟩

end BoxGen

/-! ## Outlines -/

namespace Block

variable {Γ : FloatOps} {shape : Shaper} {tree : BoxTree} {doc : StyledDocument} {document : Document} {viewport : Size}

/-- What a block may have as a child: a block, or a line with the block's style. -/
def BlockContent (d e : FragmentData) : Prop :=
  e.kind = .block ∨ e.kind = .anonymousBlock ∨ (e.kind = .line ∧ e.style = d.style)

/-- What a fragment's kind says about its style and its children. -/
def FragmentShape (doc : StyledDocument) (d : FragmentData) (children : List FragmentData) : Prop :=
  match d.kind with
  | .block => (∃ n, d.node = some n ∧ d.style.overflow = doc.overflow n) ∧ ∀ e ∈ children, BlockContent d e
  | .anonymousBlock => d.style.overflow = .visible ∧ ∀ e ∈ children, BlockContent d e
  | .line => ∀ e ∈ children, ∃ runs, e.kind = .text runs
  | .text _ => children = []

theorem blockKind_eq (kind : BoxKind) : blockKind kind = .block ∨ blockKind kind = .anonymousBlock := by
  unfold blockKind
  split
  · exact .inr rfl
  · exact .inl rfl

theorem textsOutline_locally (doc : StyledDocument) (style : LayoutStyle) (items : List InlineItem) (groups : List Inline.RunGroup) :
    (Inline.textsOutline style items groups).Locally (FragmentShape doc) ∧
      ∀ e ∈ (Inline.textsOutline style items groups).roots, ∃ runs, e.kind = .text runs := by
  induction groups with
  | nil => exact ⟨trivial, fun e he => absurd he List.not_mem_nil⟩
  | cons group groups ih =>
    refine ⟨⟨rfl, trivial, ih.1⟩, ?_⟩
    intro e he
    rcases List.mem_cons.1 he with rfl | he
    · exact ⟨_, rfl⟩
    · exact ih.2 e he

theorem linesOutline_locally (doc : StyledDocument) (style : LayoutStyle) (items : List InlineItem) (lines : List LineBox) :
    (Inline.linesOutline style items lines).Locally (FragmentShape doc) ∧
      ∀ e ∈ (Inline.linesOutline style items lines).roots, e.kind = .line ∧ e.style = style := by
  induction lines with
  | nil => exact ⟨trivial, fun e he => absurd he List.not_mem_nil⟩
  | cons line lines ih =>
    obtain ⟨htexts, hkinds⟩ := textsOutline_locally doc style items (Inline.groupRuns line)
    refine ⟨⟨hkinds, htexts, ih.1⟩, ?_⟩
    intro e he
    rcases List.mem_cons.1 he with rfl | he
    · exact ⟨rfl, rfl⟩
    · exact ih.2 e he

/-- A block's own data fits children that it may have. -/
theorem blockData_shape {b : LayoutBox} (hkeeps : BoxGen.KeepsOverflow doc b.data) (hflow : BoxGen.FlowKind b.kind)
    {children : List FragmentData} (hc : ∀ e ∈ children, BlockContent (blockData b) e) :
    FragmentShape doc (blockData b) children := by
  have hkind : blockKind b.kind = if b.kind = .anonymousBlock then .anonymousBlock else .block := by
    simp only [blockKind, isAnonymous, decide_eq_true_eq]
  simp only [FragmentShape, blockData, hkind]
  rcases hflow with h | h | h
  all_goals
    simp only [BoxGen.KeepsOverflow, LayoutBox.data, h] at hkeeps
    simp only [h, reduceCtorEq, if_true, if_false]
    exact ⟨hkeeps, hc⟩

/-- The children of a block container may be laid out as blocks. -/
theorem flowKind_of_container (inv : tree.Invariant document) {p : BoxId} {b : LayoutBox} (hb : tree.get p = some b)
    (hflow : BoxGen.FlowKind b.kind) (hk : isBlockContainer tree p = true) :
    ∀ c ∈ b.children, ∀ d, tree.get c = some d → BoxGen.FlowKind d.kind := by
  intro c hc d hd
  have hmade : b.kind ≠ .anonymousInline := by
    rcases hflow with h | h | h <;> rw [h] <;> nofun
  obtain ⟨d', hd', hl⟩ := blockLevel_of_container inv hb hmade hk c hc
  obtain rfl := Option.some.inj (hd'.symm.trans hd)
  cases hkind : d'.kind with
  | block => exact .inl rfl
  | anonymousBlock => exact .inr (.inr rfl)
  | _ => rw [hkind] at hl; cases hl

/-- The outline of boxes that may be laid out as blocks. -/
theorem outline_locally (Γ : FloatOps) (shape : Shaper) (inv : tree.Invariant document) (F : Forest BoxId)
    (hF : F.Follows tree.kids) (w : Au) (h : Option Au)
    (hkeeps : ∀ id ∈ F.preorder, ∃ b, tree.get id = some b ∧ BoxGen.Made doc b.data)
    (hflow : ∀ id ∈ F.roots, ∀ b, tree.get id = some b → BoxGen.FlowKind b.kind) :
    (outline Γ shape tree document w h F).Locally (FragmentShape doc) ∧
      ∀ e ∈ (outline Γ shape tree document w h F).roots, e.kind = .block ∨ e.kind = .anonymousBlock := by
  induction F generalizing w h with
  | nil => exact ⟨trivial, fun e he => absurd he List.not_mem_nil⟩
  | cons id K R ihK ihR =>
    obtain ⟨hK, hK', hR'⟩ := hF
    obtain ⟨b, hb, hkeep⟩ := hkeeps id List.mem_cons_self
    have hflowb := hflow id List.mem_cons_self b hb
    have hkids : K.roots = b.children := by rw [hK, BoxTree.kids, hb]; rfl
    obtain ⟨hR1, hR2⟩ := ihR hR' w h (fun x hx => hkeeps x (List.mem_cons_of_mem _ (List.mem_append_right _ hx)))
      fun x hx => hflow x (List.mem_cons_of_mem _ hx)
    simp only [outline, hb]
    refine ⟨⟨?_, ?_, hR1⟩, fun e he => ?_⟩
    · refine blockData_shape hkeep.1 hflowb ?_
      intro e he
      split at he
      · rename_i hk
        obtain ⟨-, hK2⟩ := ihK hK' (resolveBoxModel Γ b.style w h).contentWidth (resolveBoxModel Γ b.style w h).knownHeight
          (fun x hx => hkeeps x (List.mem_cons_of_mem _ (List.mem_append_left _ hx)))
          fun x hx => flowKind_of_container inv hb hflowb hk x (hkids ▸ hx)
        exact (hK2 e he).imp_right .inl
      · exact .inr (.inr ((linesOutline_locally doc _ _ _).2 e he))
    · split
      · rename_i hk
        exact (ihK hK' _ _ (fun x hx => hkeeps x (List.mem_cons_of_mem _ (List.mem_append_left _ hx)))
          fun x hx => flowKind_of_container inv hb hflowb hk x (hkids ▸ hx)).1
      · exact (linesOutline_locally _ _ _ _).1
    · rcases List.mem_cons.1 he with rfl | he
      · exact blockKind_eq b.kind
      · exact hR2 e he

/-! ## Fragments -/

/-- The `overflow` and the children of the fragments of a layout. -/
structure Layered (Γ : FloatOps) (doc : StyledDocument) (fragments : FragmentTree) : Prop where
  block : ∀ p f, fragments.get p = some f → f.kind = .block →
    ∃ n, f.node = some n ∧ (Paint.resolveStyle Γ fragments f.style).overflow = doc.overflow n
  anonymous : ∀ p f, fragments.get p = some f → f.kind = .anonymousBlock →
    (Paint.resolveStyle Γ fragments f.style).overflow = .visible
  content : ∀ p f, fragments.get p = some f → f.kind = .block ∨ f.kind = .anonymousBlock → ∀ c ∈ f.children,
    ∃ g, fragments.get c = some g ∧ (g.kind = .block ∨ g.kind = .anonymousBlock ∨
      (g.kind = .line ∧ Paint.resolveStyle Γ fragments g.style = Paint.resolveStyle Γ fragments f.style))
  line : ∀ p f, fragments.get p = some f → f.kind = .line → ∀ c ∈ f.children,
    ∃ g runs, fragments.get c = some g ∧ g.kind = .text runs
  text : ∀ p f runs, fragments.get p = some f → f.kind = .text runs → f.children = []
  root : ∃ f, fragments.get fragments.root = some f ∧ (f.kind = .block ∨ f.kind = .anonymousBlock)

/-- A fragment and its parent: a block in a block, a line in the block whose style it has, or a text in a line. -/
theorem Layered.parent_cases {fragments : FragmentTree} (hl : Layered Γ doc fragments) {p c : FragmentId} {g : Fragment}
    (hc : c ∈ fragments.kids p) (hg : fragments.get c = some g) :
    ∃ f, fragments.get p = some f ∧ c ∈ f.children ∧
      (((f.kind = .block ∨ f.kind = .anonymousBlock) ∧ (g.kind = .block ∨ g.kind = .anonymousBlock ∨
        (g.kind = .line ∧ Paint.resolveStyle Γ fragments g.style = Paint.resolveStyle Γ fragments f.style))) ∨
      (f.kind = .line ∧ ∃ runs, g.kind = .text runs)) := by
  cases hp : fragments.get p with
  | none => simp [FragmentTree.kids, hp] at hc
  | some f =>
    rw [Paint.kids_eq hp] at hc
    refine ⟨f, rfl, hc, ?_⟩
    have block : f.kind = .block ∨ f.kind = .anonymousBlock → g.kind = .block ∨ g.kind = .anonymousBlock ∨
        (g.kind = .line ∧ Paint.resolveStyle Γ fragments g.style = Paint.resolveStyle Γ fragments f.style) := by
      intro hk
      obtain ⟨g', hg', h⟩ := hl.content p f hp hk c hc
      obtain rfl := Option.some.inj (hg'.symm.trans hg)
      exact h
    cases hk : f.kind with
    | block => exact .inl ⟨.inl rfl, block (.inl hk)⟩
    | anonymousBlock => exact .inl ⟨.inr rfl, block (.inr hk)⟩
    | line =>
      obtain ⟨g', runs, hg', h⟩ := hl.line p f hp hk c hc
      obtain rfl := Option.some.inj (hg'.symm.trans hg)
      exact .inr ⟨rfl, runs, h⟩
    | text runs =>
      rw [hl.text p f runs hp hk] at hc
      cases hc

theorem unplaced_eq_block {kind : FragmentKind} : kind.unplaced = .block ↔ kind = .block := by
  cases kind <;> simp [FragmentKind.unplaced]

theorem unplaced_eq_anonymousBlock {kind : FragmentKind} : kind.unplaced = .anonymousBlock ↔ kind = .anonymousBlock := by
  cases kind <;> simp [FragmentKind.unplaced]

theorem unplaced_eq_line {kind : FragmentKind} : kind.unplaced = .line ↔ kind = .line := by
  cases kind <;> simp [FragmentKind.unplaced]

theorem unplaced_eq_text {kind : FragmentKind} : (∃ runs, kind.unplaced = .text runs) ↔ ∃ runs, kind = .text runs := by
  cases kind <;> simp [FragmentKind.unplaced]

/-- A fragment tree whose outline has the shape is layered. -/
theorem HasOutline.layered (Γ : FloatOps) {fragments : FragmentTree} {F : Forest FragmentData} (ho : HasOutline fragments F)
    (hF : F.Locally (FragmentShape doc)) (hroots : ∀ e ∈ F.roots, e.kind = .block ∨ e.kind = .anonymousBlock) :
    Layered Γ doc fragments := by
  -- the data of a fragment and of its children
  have shape : ∀ {p f}, fragments.get p = some f → ∃ labels,
      FragmentShape doc ⟨f.node, f.kind.unplaced, Paint.resolveStyle Γ fragments f.style⟩ labels ∧
      ∀ c ∈ f.children, ∃ g, fragments.get c = some g ∧
        ⟨g.node, g.kind.unplaced, Paint.resolveStyle Γ fragments g.style⟩ ∈ labels := by
    intro p f hf
    obtain ⟨style, hstyle, he⟩ := ho.entry_of_get hf
    have hres : Paint.resolveStyle Γ fragments f.style = style := by rw [Paint.resolveStyle, hstyle]; rfl
    obtain ⟨labels, hshape, hmap⟩ := ho.stored.locally hF (ho.mem_ids_iff.2 ⟨f, hf⟩) he
    refine ⟨labels, hres.symm ▸ hshape, ?_⟩
    intro c hc
    have hmem := hmap ▸ List.mem_map_of_mem (f := fun c => (fragments.arenas.entry c).map Prod.fst) hc
    obtain ⟨d, hd, hdc⟩ := List.mem_map.1 hmem
    obtain ⟨x, hx, rfl⟩ := Option.map_eq_some_iff.1 hdc.symm
    obtain ⟨g, hg, hs⟩ := Option.bind_eq_some_iff.1 hx
    obtain ⟨st, hst, rfl⟩ := Option.map_eq_some_iff.1 hs
    have hresg : Paint.resolveStyle Γ fragments g.style = st := by
      rw [Paint.resolveStyle, FragmentTree.style, show fragments.styles[g.style.index]? = some st from hst]
      rfl
    exact ⟨g, hg, hresg.symm ▸ hd⟩
  have content : ∀ {p f}, fragments.get p = some f → f.kind = .block ∨ f.kind = .anonymousBlock → ∀ c ∈ f.children,
      ∃ g, fragments.get c = some g ∧ (g.kind = .block ∨ g.kind = .anonymousBlock ∨
        (g.kind = .line ∧ Paint.resolveStyle Γ fragments g.style = Paint.resolveStyle Γ fragments f.style)) := by
    intro p f hf hk c hc
    obtain ⟨labels, hshape, hchild⟩ := shape hf
    obtain ⟨g, hg, hmem⟩ := hchild c hc
    have hcontent : BlockContent ⟨f.node, f.kind.unplaced, Paint.resolveStyle Γ fragments f.style⟩
        ⟨g.node, g.kind.unplaced, Paint.resolveStyle Γ fragments g.style⟩ := by
      rcases hk with hk | hk
      · simp only [FragmentShape, unplaced_eq_block.2 hk] at hshape ⊢
        exact hshape.2 _ hmem
      · simp only [FragmentShape, unplaced_eq_anonymousBlock.2 hk] at hshape ⊢
        exact hshape.2 _ hmem
    rcases hcontent with h | h | ⟨h, hs⟩
    · exact ⟨g, hg, .inl (unplaced_eq_block.1 h)⟩
    · exact ⟨g, hg, .inr (.inl (unplaced_eq_anonymousBlock.1 h))⟩
    · exact ⟨g, hg, .inr (.inr ⟨unplaced_eq_line.1 h, hs⟩)⟩
  refine ⟨?_, ?_, fun p f => content, ?_, ?_, ?_⟩
  · intro p f hf hk
    obtain ⟨labels, hshape, -⟩ := shape hf
    simp only [FragmentShape, unplaced_eq_block.2 hk] at hshape
    exact hshape.1
  · intro p f hf hk
    obtain ⟨labels, hshape, -⟩ := shape hf
    simp only [FragmentShape, unplaced_eq_anonymousBlock.2 hk] at hshape
    exact hshape.1
  · intro p f hf hk c hc
    obtain ⟨labels, hshape, hchild⟩ := shape hf
    obtain ⟨g, hg, hmem⟩ := hchild c hc
    simp only [FragmentShape, unplaced_eq_line.2 hk] at hshape
    obtain ⟨runs, hruns⟩ := unplaced_eq_text.1 (hshape _ hmem)
    exact ⟨g, runs, hg, hruns⟩
  · intro p f runs hf hk
    obtain ⟨labels, hshape, hchild⟩ := shape hf
    simp only [FragmentShape, hk, FragmentKind.unplaced] at hshape
    subst hshape
    refine List.eq_nil_iff_forall_not_mem.2 ?_
    intro c hc
    obtain ⟨g, -, hmem⟩ := hchild c hc
    cases hmem
  · have hmem : fragments.root ∈ (Postorder.ids FragmentId.mk 0 F).roots := by
      rw [← ho.root]
      exact List.mem_cons_self
    obtain ⟨f, hf⟩ := ho.mem_ids_iff.1 (Forest.mem_preorder_of_mem_roots hmem)
    obtain ⟨style, -, he⟩ := ho.entry_of_get hf
    have hmap := congrArg Forest.roots ho.stored.map_ids
    rw [Forest.roots_map, Forest.roots_map] at hmap
    have hlabel := hmap ▸ List.mem_map_of_mem (f := fun c => (fragments.arenas.entry c).map Prod.fst) hmem
    rw [he] at hlabel
    obtain ⟨d, hd, hde⟩ := List.mem_map.1 hlabel
    obtain rfl := Option.some.inj hde
    exact ⟨f, hf, (hroots _ hd).imp unplaced_eq_block.1 unplaced_eq_anonymousBlock.1⟩

/-- A fragment tree with an outline is well-formed. -/
theorem HasOutline.wellFormed {fragments : FragmentTree} {F : Forest FragmentData} (ho : HasOutline fragments F) :
    fragments.WellFormed := by
  have hn := Postorder.nodup_preorder_ids HasOutline.mk_injective 0 F
  have hparent : ∀ p, fragments.kids p ≠ [] → p ∈ (Postorder.ids FragmentId.mk 0 F).preorder := by
    intro p hp
    rw [ho.mem_ids_iff]
    cases hg : fragments.get p with
    | none => exact absurd (by simp [FragmentTree.kids, hg]) hp
    | some f => exact ⟨f, rfl⟩
  refine ⟨?_, ?_, ho.follows.uniqueParents hn hparent, ?_⟩
  · have hmem : fragments.root ∈ (Postorder.ids FragmentId.mk 0 F).roots := by
      rw [← ho.root]
      exact List.mem_cons_self
    exact ho.mem_ids_iff.1 (Forest.mem_preorder_of_mem_roots hmem)
  · intro p c hc
    exact ho.mem_ids_iff.1 (ho.follows.mem_kids (hparent p (List.ne_nil_of_mem hc)) hc)
  · have hlt : ∀ {c p}, Relation.TransGen (Forest.Child fragments.kids) c p → c.index < p.index := by
      intro c p h
      induction h with
      | single h => exact ho.child_lt h
      | tail _ h ih => exact Nat.lt_trans ih (ho.child_lt h)
    exact fun id h => Nat.lt_irrefl _ (hlt h)

/-- The root of a fragment tree with an outline is nobody's child. -/
theorem HasOutline.root_not_child {fragments : FragmentTree} {F : Forest FragmentData} (ho : HasOutline fragments F)
    (p : FragmentId) : fragments.root ∉ fragments.kids p := by
  intro hc
  have hp : p ∈ (Postorder.ids FragmentId.mk 0 F).preorder := by
    rw [ho.mem_ids_iff]
    cases hg : fragments.get p with
    | none => simp [FragmentTree.kids, hg] at hc
    | some f => exact ⟨f, rfl⟩
  refine (ho.follows.children_apart (Postorder.nodup_preorder_ids HasOutline.mk_injective 0 F) hp hc).1 ?_
  rw [← ho.root]
  exact List.mem_cons_self

/-- Every fragment of a fragment tree with an outline is at or below its root. -/
theorem HasOutline.reaches {fragments : FragmentTree} {F : Forest FragmentData} (ho : HasOutline fragments F)
    {id : FragmentId} {f : Fragment} (hf : fragments.get id = some f) :
    Relation.ReflTransGen (Forest.Child fragments.kids) id fragments.root :=
  (ho.follows.mem_preorder_iff ho.root.symm id).1 (ho.mem_ids_iff.2 ⟨f, hf⟩)

/-- The layout of a document is the walk over its box tree. -/
theorem layout_of_run {Γ : FloatOps} {shape : Shaper} {doc : StyledDocument} {viewport : Size} {tree : BoxTree}
    {fragments : FragmentTree} (hb : BoxGen.build Γ doc = .some tree)
    (hr : run Γ shape tree doc.document viewport = .some (fragments, none)) :
    layout Γ shape doc viewport = .some (.ok fragments) := by
  unfold layout
  rw [hb, Part.bind_eq_bind, Part.bind_some, hr, Part.bind_eq_bind, Part.bind_some]
  rfl

/-- What layout returns for a styled document: a fragment tree in post-order, layered. -/
theorem layout_outline {Γ : FloatOps} {shape : Shaper} {doc : StyledDocument} {viewport : Size} {fragments : FragmentTree}
    (h : layout Γ shape doc viewport = .some (.ok fragments)) :
    (∃ F, HasOutline fragments F) ∧ Layered Γ doc fragments ∧ fragments.viewport = viewport := by
  unfold layout at h
  obtain ⟨tree, htree, h⟩ := Part.bind_eq_some_iff.1 h
  obtain ⟨⟨ft, error⟩, hrun, h⟩ := Part.bind_eq_some_iff.1 h
  have inv := BoxGen.invariant_of_build htree
  obtain ⟨B, hroots, hB⟩ := inv.exists_forest
  obtain ⟨hkeeps, root, hroot, hflow⟩ := BoxGen.build_made htree hroots hB
  obtain ⟨ft', error', hrun', hviewport, ho⟩ := run_outline Γ shape doc.document viewport hroot hroots hB
  obtain ⟨rfl, rfl⟩ := Prod.mk.inj (Part.some_injective (hrun.symm.trans hrun'))
  obtain ⟨hF, hkinds⟩ := outline_locally Γ shape inv B hB viewport.w (some viewport.h) hkeeps (by
    intro id hid b hb
    rw [hroots] at hid
    obtain rfl := List.mem_singleton.1 hid
    obtain rfl := Option.some.inj (hroot.symm.trans hb)
    exact hflow)
  cases error with
  | some e => cases Part.some_injective h
  | none =>
    obtain rfl := Except.ok.inj (Part.some_injective h)
    exact ⟨⟨_, ho⟩, HasOutline.layered Γ ho hF hkinds, hviewport⟩

end Block

end ChromeLight
