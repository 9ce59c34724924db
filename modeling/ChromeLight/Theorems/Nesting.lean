import ChromeLight.Lemmas.Boxes
import ChromeLight.Theorems.BoxModel
import ChromeLight.Theorems.ParentMargins
import ChromeLight.Theorems.Translation

/-!
# The boxes of blocks

The content box of a block is worked out twice: before the block's children, from its model, as the place they are put in, and
after them, from its border box. The two agree (`blocks_nest`), for containers and for leaves, unless a sum saturates: every
block of a layout is put together from what its children were placed by, its three boxes lie within each other, and its
content box is as wide as the containing block of its children.

That holds for sizes that cannot be negative. A negative `min-width` makes a box narrower than nothing
(`blocks_nest_false`).
-/

namespace ChromeLight

/-- The fragment of a block, anonymous or not. -/
def Fragment.IsBlock (f : Fragment) : Prop := f.kind = .block ∨ f.kind = .anonymousBlock

instance (f : Fragment) : Decidable f.IsBlock := inferInstanceAs (Decidable (_ ∨ _))

namespace Block

/-! ## What the walk appends -/

section

variable (Γ : FloatOps) (shape : Shaper) (tree : BoxTree) (document : Document) (viewport : Size)

/-- A leaf in its place with its lines, and the arenas that have the lines. -/
def leafBlock (child : LayoutBox) (placement : ChildPlacement) (a : Arenas) (error : Option LayoutError) :
    Finished × Arenas :=
  let content := (leafContent shape tree document child placement a error).1
  (finishedLeaf a.fragments.length child placement content.1.1 content.1.2, content.2)

/-- The place of the root. -/
def rootPlacement (root : LayoutBox) : ChildPlacement :=
  let model := resolveBoxModel Γ root.style viewport.w (some viewport.h)
  { model, origin := { x := model.marginLeft, y := model.marginTop }, effectiveMarginBottom := .zero
    cbWidth := viewport.w, cbHeight := some viewport.h }

/-- The block whose fragment the next iteration appends, if it appends one, and the arenas it appends it to. -/
def appended (s : LayoutState) : Option (Finished × Arenas) :=
  match s.stack with
  | [] => none
  | top :: _ =>
    match top.blockChildren[top.nextChild]? with
    | none => some (top.finished, s.arenas)
    | some id =>
      match tree.get id with
      | none => none
      | some child =>
        if isBlockContainer tree id then none
        else some (leafBlock shape tree document child (placeChild Γ tree id child.style top s.memo).1 s.arenas s.error)

/-- The layout of a tree appends the fragment of a block to arenas. -/
inductive Pushes : Finished → Arenas → Prop where
  | iteration {s : LayoutState} {b : Finished} {a : Arenas} (hs : Reaches Γ shape tree document viewport s)
      (h : appended Γ shape tree document s = some (b, a)) : Pushes b a
  /-- The root, if it is a leaf. -/
  | root {root : LayoutBox} {b : Finished} {a : Arenas} (hroot : tree.get tree.root = some root)
      (hk : isBlockContainer tree tree.root = false)
      (h : leafBlock shape tree document root (rootPlacement Γ viewport root) { fragments := [], styles := [] } none = (b, a)) :
      Pushes b a

/-- Appending a block saturates nowhere: not the sums its boxes are made of, nor the move of the blocks at and below it. -/
structure Finished.AppendFits (b : Finished) (a : Arenas) : Prop where
  fits : b.Fits
  shifts : ∀ f ∈ (a.fragments ++ [b.fragment ⟨a.styles.length⟩]).drop b.fragStart, f.IsBlock → f.ShiftFits (b.offset Γ)

/-- No block the layout appends saturates. -/
def Unsaturated : Prop := ∀ b a, Pushes Γ shape tree document viewport b a → b.AppendFits Γ a

/-- No box has a negative padding or border in its containing block. -/
def SidesNonNeg : Prop :=
  ∀ id b w h, tree.get id = some b → ContainingBlock Γ tree viewport id w h →
    (resolveBoxModel Γ b.style w h).padding.NonNeg ∧ (resolveBoxModel Γ b.style w h).border.NonNeg

/-- The least width and height a box may have in a containing block are not negative lengths. -/
def MinSizesNonNeg (style : LayoutStyle) (w : Au) (h : Option Au) : Prop :=
  0 ≤ (resolveLenZero Γ style.minWidth w).units ∧ 0 ≤ (resolveLenZero Γ style.minHeight (h.getD .zero)).units

/-! ## The blocks of a layout -/

/-- A block that was laid out: its box, and what its fragment was made of, before relative offsets moved it. -/
structure LaidBlock where
  box : BoxId
  finished : Finished
deriving DecidableEq, Repr

/-- The block a fragment is of. -/
def blockAt (blocks : List (Option LaidBlock)) (g : FragmentId) : Option LaidBlock := blocks[g.index]?.join

/-- A block is where the walk placed a child of a container with that content origin, in a containing block of that width. -/
def PlacedFrom (origin : Point) (width : Au) (c : BoxId) (b : Finished) : Prop :=
  b.cbWidth = width ∧ ∃ s top child, Reaches Γ shape tree document viewport s ∧ NextChild tree s top c child ∧
    top.contentOrigin = origin ∧ top.contentWidth = width ∧ b.origin = (placeChild Γ tree c child.style top s.memo).1.origin

/-- A fragment is that of a child box, placed from a content origin in a containing block of that width. -/
def ChildAt (blocks : List (Option LaidBlock)) (origin : Point) (width : Au) (c : BoxId) (g : FragmentId) : Prop :=
  ∃ b, blockAt blocks g = some ⟨c, b⟩ ∧ PlacedFrom Γ shape tree document viewport origin width c b

/-- The lines of a leaf were laid out from a content origin, in that width. -/
def LinesFrom (origin : Point) (width : Au) (box : LayoutBox) (lines : List FragmentId) : Prop :=
  lines = [] ∨ ∃ a r, Inline.layout shape tree document
      { children := box.children, containerStyle := box.style, contentOrigin := origin, contentWidth := width } a = .ok r ∧
    lines = r.1.1

/-- What the boxes of a block's fragment are. `plain` is the fragment as it was made, before any relative offset. -/
structure BlockBoxes (blocks : List (Option LaidBlock)) (box : LayoutBox) (l : LaidBlock) (model : BoxModel) (plain f : Fragment) :
    Prop where
  resolves : tree.get l.box = some box
  cb : ContainingBlock Γ tree viewport l.box l.finished.cbWidth l.finished.cbHeight
  pushed : ∃ a, Pushes Γ shape tree document viewport l.finished a
  moved : ∃ offs, f = settle offs plain
  /-- The place of the content box is the one worked out before the block's height was known. -/
  origin : plain.contentBox.origin = contentOriginOf plain.borderBox.origin model
  /-- The children of a container were placed from there, in a containing block of the content width. -/
  children : isBlockContainer tree l.box = true →
    List.Forall₂ (ChildAt Γ shape tree document viewport blocks plain.contentBox.origin model.contentWidth) box.children f.children
  /-- The lines of a leaf were too. -/
  lines : isBlockContainer tree l.box = false →
    LinesFrom shape tree document plain.contentBox.origin model.contentWidth box f.children
  nested : MinSizesNonNeg Γ box.style l.finished.cbWidth l.finished.cbHeight →
    plain.Nested ∧ f.Nested ∧ plain.contentBox.size.w = model.contentWidth ∧ f.contentBox.size.w = model.contentWidth

/-- The boxes of a fragment that was made of a block. -/
def Laid (blocks : List (Option LaidBlock)) (l : LaidBlock) (f : Fragment) : Prop :=
  ∃ box, BlockBoxes Γ shape tree document viewport blocks box l
    (resolveBoxModel Γ box.style l.finished.cbWidth l.finished.cbHeight) (l.finished.fragment f.style) f

/-- The blocks of arenas: every fragment of a block is known to be one, and has the boxes of one. -/
structure BlocksLaid (blocks : List (Option LaidBlock)) (fragments : List Fragment) : Prop where
  len : blocks.length = fragments.length
  block : ∀ (i : Nat) f, fragments[i]? = some f → f.IsBlock → ∃ l, blocks[i]? = some (some l)
  laid : ∀ (i : Nat) l, blocks[i]? = some (some l) →
    ∃ f, fragments[i]? = some f ∧ Laid Γ shape tree document viewport blocks l f

end

variable {Γ : FloatOps} {shape : Shaper} {tree : BoxTree} {document : Document} {viewport : Size}

/-! ## One block -/

/-- A size that is not negative stays so. -/
theorem usedContentSize_nonneg {specified : Au} (boxSizing : BoxSizing) (nonContent : Au) (h : 0 ≤ specified.units) :
    0 ≤ (usedContentSize specified boxSizing nonContent).units := by
  cases boxSizing with
  | contentBox => exact h
  | borderBox =>
    rw [usedContentSize, Au.units_max]
    exact Int.le_max_right _ _

/-- A box whose least sizes are not negative has no negative content width and no negative least height. -/
theorem content_nonneg {style : LayoutStyle} {w : Au} {h : Option Au} (hmin : MinSizesNonNeg Γ style w h) :
    0 ≤ (resolveBoxModel Γ style w h).contentWidth.units ∧ 0 ≤ (resolveBoxModel Γ style w h).minHeight.units := by
  refine ⟨?_, usedContentSize_nonneg _ _ hmin.2⟩
  obtain ⟨nonContent, tentative, content, -, -, hcontent, hresult⟩ := resolveWidthAndMargins_eq Γ style w
    (resolveBoxModel Γ style w h).padding (resolveBoxModel Γ style w h).border
  have hwidth : (resolveBoxModel Γ style w h).contentWidth = content := congrArg Prod.fst hresult
  have hlower := (clampAu_bounds tentative (usedContentSize (resolveLenZero Γ style.minWidth w) style.boxSizing nonContent)
    (style.maxWidth.map fun l => usedContentSize (resolveLenZero Γ l w) style.boxSizing nonContent)).1
  rw [hwidth, hcontent]
  exact Int.le_trans (usedContentSize_nonneg _ _ hmin.1) hlower

/-- A height a box knows is at least its least height. -/
theorem minHeight_le_knownHeight {style : LayoutStyle} {w : Au} {h : Option Au} {height : Au}
    (hknown : (resolveBoxModel Γ style w h).knownHeight = some height) :
    (resolveBoxModel Γ style w h).minHeight.units ≤ height.units := by
  simp only [resolveBoxModel] at hknown ⊢
  obtain ⟨specified, -, rfl⟩ := Option.map_eq_some_iff.1 hknown
  exact (clampAu_bounds _ _ _).1

/-- A finished block has the data of a box in its containing block. -/
structure MadeOf (Γ : FloatOps) (tree : BoxTree) (viewport : Size) (id : BoxId) (box : LayoutBox) (b : Finished) : Prop where
  resolves : tree.get id = some box
  cb : ContainingBlock Γ tree viewport id b.cbWidth b.cbHeight
  padding : b.padding = (resolveBoxModel Γ box.style b.cbWidth b.cbHeight).padding
  border : b.border = (resolveBoxModel Γ box.style b.cbWidth b.cbHeight).border
  contentWidth : b.contentWidth = (resolveBoxModel Γ box.style b.cbWidth b.cbHeight).contentWidth
  height : (resolveBoxModel Γ box.style b.cbWidth b.cbHeight).minHeight.units ≤ b.contentHeight.units

/-- The frame of a container, with the least height of its box. -/
def OpenFrame (Γ : FloatOps) (tree : BoxTree) (viewport : Size) (id : BoxId) (box : LayoutBox) (frame : Frame) : Prop :=
  FrameOf Γ tree viewport box id frame ∧
    frame.minHeight = (resolveBoxModel Γ box.style frame.cbWidth frame.cbHeight).minHeight

/-- An open frame is made of its box. -/
theorem OpenFrame.madeOf {id : BoxId} {box : LayoutBox} {frame : Frame} (h : OpenFrame Γ tree viewport id box frame) :
    MadeOf Γ tree viewport id box frame.finished := by
  obtain ⟨hf, hmin⟩ := h
  refine ⟨hf.box, hf.cb, hf.padding, hf.border, hf.contentWidth, ?_⟩
  show (resolveBoxModel Γ box.style frame.cbWidth frame.cbHeight).minHeight.units ≤ frame.contentHeight.units
  unfold Frame.contentHeight
  cases hknown : frame.knownHeight with
  | some height => exact minHeight_le_knownHeight (hf.knownHeight ▸ hknown)
  | none =>
    rw [← hmin]
    exact (clampAu_bounds _ _ _).1

/-- A finished leaf is made of its box. -/
theorem madeOf_finishedLeaf {id : BoxId} {child : LayoutBox} {placement : ChildPlacement} (hg : tree.get id = some child)
    (hcb : ContainingBlock Γ tree viewport id placement.cbWidth placement.cbHeight)
    (hmodel : placement.model = resolveBoxModel Γ child.style placement.cbWidth placement.cbHeight) (fragStart : Nat)
    (lines : List FragmentId) (inlineHeight : Au) :
    MadeOf Γ tree viewport id child (finishedLeaf fragStart child placement lines inlineHeight) := by
  refine ⟨hg, hcb, congrArg BoxModel.padding hmodel, congrArg BoxModel.border hmodel, congrArg BoxModel.contentWidth hmodel, ?_⟩
  simp only [finishedLeaf, ← hmodel]
  cases hknown : placement.model.knownHeight with
  | some height =>
    rw [hmodel] at hknown ⊢
    exact minHeight_le_knownHeight hknown
  | none => exact (clampAu_bounds _ _ _).1

/-- The boxes of a block that is appended, before it is moved. -/
theorem blockBoxes_of_madeOf (hsides : SidesNonNeg Γ tree viewport) (hfits : Unsaturated Γ shape tree document viewport)
    {blocks : List (Option LaidBlock)} {id : BoxId} {box : LayoutBox} {b : Finished} {a : Arenas} {origin : Point}
    (h : MadeOf Γ tree viewport id box b) (hpush : Pushes Γ shape tree document viewport b a)
    (horigin : origin = contentOriginOf b.origin (resolveBoxModel Γ box.style b.cbWidth b.cbHeight))
    (hchildren : isBlockContainer tree id = true →
      List.Forall₂ (ChildAt Γ shape tree document viewport blocks origin b.contentWidth) box.children b.children)
    (hlines : isBlockContainer tree id = false → LinesFrom shape tree document origin b.contentWidth box b.children)
    (style : StyleId) : Laid Γ shape tree document viewport blocks ⟨id, b⟩ (b.fragment style) := by
  obtain ⟨hpadding, hborder⟩ := hsides id box _ _ h.resolves h.cb
  rw [← h.padding] at hpadding
  rw [← h.border] at hborder
  have hplace := contentBox_origin hpadding hborder (hfits b a hpush).fits h.padding h.border style
  rw [h.contentWidth, horigin, ← hplace] at hchildren hlines
  refine ⟨box, h.resolves, h.cb, ⟨a, hpush⟩, ⟨[], rfl⟩, hplace, hchildren, hlines, ?_⟩
  intro hmin
  obtain ⟨hwidth, hheight⟩ := content_nonneg hmin
  obtain ⟨hnested, hsize⟩ := nested_fragment hpadding hborder (hfits b a hpush).fits
    (by rw [h.contentWidth]; exact hwidth) (Int.le_trans hheight h.height) style
  have hw : (b.fragment style).contentBox.size.w = _ := (congrArg Size.w hsize).trans h.contentWidth
  exact ⟨hnested, hnested, hw, hw⟩

/-! ## More blocks -/

/-- Blocks stay as more are laid. -/
theorem blockAt_append {blocks : List (Option LaidBlock)} (more : List (Option LaidBlock)) {g : FragmentId} {l : LaidBlock}
    (h : blockAt blocks g = some l) : blockAt (blocks ++ more) g = some l := by
  have hget := Option.join_eq_some_iff.1 h
  exact Option.join_eq_some_iff.2 ((List.getElem?_append_left (List.getElem?_eq_some_iff.1 hget).1).trans hget)

/-- A child stays where it is as more blocks are laid. -/
theorem ChildAt.append {blocks : List (Option LaidBlock)} (more : List (Option LaidBlock)) {origin : Point} {width : Au}
    {c : BoxId} {g : FragmentId} (h : ChildAt Γ shape tree document viewport blocks origin width c g) :
    ChildAt Γ shape tree document viewport (blocks ++ more) origin width c g := by
  obtain ⟨b, hb, hplaced⟩ := h
  exact ⟨b, blockAt_append more hb, hplaced⟩

/-- A block stays laid as more are. -/
theorem Laid.append {blocks : List (Option LaidBlock)} (more : List (Option LaidBlock)) {l : LaidBlock} {f : Fragment}
    (h : Laid Γ shape tree document viewport blocks l f) : Laid Γ shape tree document viewport (blocks ++ more) l f := by
  obtain ⟨box, hbox⟩ := h
  exact ⟨box, { hbox with children := fun hk => (hbox.children hk).imp fun _ _ hc => hc.append more }⟩

/-- A move that does not saturate leaves a block's boxes what they are. -/
theorem Laid.shift {blocks : List (Option LaidBlock)} {l : LaidBlock} {f : Fragment} {o : Au × Au}
    (h : Laid Γ shape tree document viewport blocks l f) (hfits : f.ShiftFits o) :
    Laid Γ shape tree document viewport blocks l (shiftFragment o.1 o.2 f) := by
  obtain ⟨box, hbox⟩ := h
  obtain ⟨offs, hoffs⟩ := hbox.moved
  refine ⟨box, { hbox with moved := ⟨offs ++ [o], ?_⟩, nested := fun hmin => ?_ }⟩
  · rw [settle_concat]
    exact congrArg (shiftFragment o.1 o.2) hoffs
  · obtain ⟨hplain, hnested, hw, hw'⟩ := hbox.nested hmin
    exact ⟨hplain, nested_shiftFragment hnested hfits, hw, hw'⟩

/-- A shift moves the fragments from one on. -/
theorem getElem?_shiftFrom (start : Nat) (dx dy : Au) (fragments : List Fragment) (i : Nat) :
    (shiftFrom start dx dy fragments)[i]? =
      (fragments[i]?).map fun f => if i < start then f else shiftFragment dx dy f := by
  unfold shiftFrom
  by_cases hi : i < fragments.length
  · by_cases hlt : i < start
    · rw [List.getElem?_append_left (by rw [List.length_take]; omega), List.getElem?_take_of_lt hlt]
      simp only [hlt, if_true, Option.map_id']
    · rw [List.getElem?_append_right (by rw [List.length_take]; omega), List.getElem?_map, List.getElem?_drop,
        List.length_take, show start + (i - min start fragments.length) = i by omega]
      simp only [hlt, if_false]
  · rw [List.getElem?_eq_none (Nat.le_of_not_lt hi), List.getElem?_eq_none]
    · rfl
    · simp only [List.length_append, List.length_take, List.length_map, List.length_drop]
      omega

/-- A laid block is a block fragment. -/
theorem Laid.isBlock {blocks : List (Option LaidBlock)} {l : LaidBlock} {f : Fragment}
    (h : Laid Γ shape tree document viewport blocks l f) : f.IsBlock := by
  obtain ⟨box, hbox⟩ := h
  obtain ⟨offs, hoffs⟩ := hbox.moved
  obtain ⟨⟨-, hkind, -⟩, -⟩ := settle_spec offs (l.finished.fragment f.style)
  rw [← hoffs] at hkind
  unfold Fragment.IsBlock
  rw [hkind]
  unfold Finished.fragment
  cases l.finished.isAnonymousBlock
  · exact .inl rfl
  · exact .inr rfl

/-- A move that does not saturate leaves the blocks of arenas what they are. -/
theorem BlocksLaid.shift {blocks : List (Option LaidBlock)} {fragments : List Fragment} {start : Nat} {o : Au × Au}
    (h : BlocksLaid Γ shape tree document viewport blocks fragments)
    (hfits : ∀ f ∈ fragments.drop start, f.IsBlock → f.ShiftFits o) :
    BlocksLaid Γ shape tree document viewport blocks (shiftFrom start o.1 o.2 fragments) := by
  refine ⟨by rw [length_shiftFrom, h.len], ?_, ?_⟩
  · intro i f hf hblock
    rw [getElem?_shiftFrom] at hf
    obtain ⟨f', hf', rfl⟩ := Option.map_eq_some_iff.1 hf
    refine h.block i f' hf' ?_
    split at hblock
    · exact hblock
    · exact hblock
  · intro i l hl
    obtain ⟨f, hf, hlaid⟩ := h.laid i l hl
    refine ⟨if i < start then f else shiftFragment o.1 o.2 f, by rw [getElem?_shiftFrom, hf]; rfl, ?_⟩
    split
    · exact hlaid
    · rename_i hlt
      have hmem : f ∈ fragments.drop start := by
        refine List.mem_of_getElem? (i := i - start) ?_
        rw [List.getElem?_drop, show start + (i - start) = i by omega, hf]
      exact hlaid.shift (hfits f hmem hlaid.isBlock)

/-- More fragments behind those of the arenas, with the blocks among them. -/
theorem BlocksLaid.append {blocks more : List (Option LaidBlock)} {fragments fragments' : List Fragment}
    (h : BlocksLaid Γ shape tree document viewport blocks fragments) (hlen : more.length = fragments'.length)
    (hblock : ∀ (i : Nat) f, fragments'[i]? = some f → f.IsBlock → ∃ l, more[i]? = some (some l))
    (hlaid : ∀ (i : Nat) l, more[i]? = some (some l) →
      ∃ f, fragments'[i]? = some f ∧ Laid Γ shape tree document viewport (blocks ++ more) l f) :
    BlocksLaid Γ shape tree document viewport (blocks ++ more) (fragments ++ fragments') := by
  refine ⟨by rw [List.length_append, List.length_append, h.len, hlen], ?_, ?_⟩
  · intro i f hf hf'
    rcases Nat.lt_or_ge i fragments.length with hlt | hge
    · rw [List.getElem?_append_left hlt] at hf
      obtain ⟨l, hl⟩ := h.block i f hf hf'
      exact ⟨l, (List.getElem?_append_left (h.len ▸ hlt)).trans hl⟩
    · rw [List.getElem?_append_right hge] at hf
      obtain ⟨l, hl⟩ := hblock _ f hf hf'
      refine ⟨l, (List.getElem?_append_right (h.len ▸ hge)).trans ?_⟩
      rwa [h.len]
  · intro i l hl
    rcases Nat.lt_or_ge i blocks.length with hlt | hge
    · rw [List.getElem?_append_left hlt] at hl
      obtain ⟨f, hf, hbox⟩ := h.laid i l hl
      exact ⟨f, (List.getElem?_append_left (h.len ▸ hlt)).trans hf, hbox.append _⟩
    · rw [List.getElem?_append_right hge] at hl
      obtain ⟨f, hf, hbox⟩ := hlaid _ l hl
      refine ⟨f, (List.getElem?_append_right (h.len ▸ hge)).trans ?_, hbox⟩
      rwa [← h.len]

/-- A block more among the blocks of arenas. -/
theorem BlocksLaid.push (hfits : Unsaturated Γ shape tree document viewport) {blocks : List (Option LaidBlock)} {id : BoxId}
    {b : Finished} {a : Arenas} (h : BlocksLaid Γ shape tree document viewport blocks a.fragments)
    (hpush : Pushes Γ shape tree document viewport b a)
    (hnew : Laid Γ shape tree document viewport blocks ⟨id, b⟩ (b.fragment ⟨a.styles.length⟩)) :
    BlocksLaid Γ shape tree document viewport (blocks ++ [some ⟨id, b⟩]) (b.push Γ a).2.fragments := by
  rw [b.push_eq]
  refine BlocksLaid.shift (h.append rfl ?_ ?_) (hfits b a hpush).shifts
  · intro i f hf _
    cases i with
    | zero => exact ⟨⟨id, b⟩, rfl⟩
    | succ i => cases hf
  · intro i l hl
    cases i with
    | zero =>
      obtain rfl := Option.some.inj (Option.some.inj hl)
      exact ⟨_, rfl, hnew.append _⟩
    | succ i => cases hl

/-- Lines and texts among the blocks of arenas. -/
theorem BlocksLaid.inline {blocks : List (Option LaidBlock)} {fragments more : List Fragment}
    (h : BlocksLaid Γ shape tree document viewport blocks fragments) (hmore : ∀ f ∈ more, ¬f.IsBlock) :
    BlocksLaid Γ shape tree document viewport (blocks ++ List.replicate more.length none) (fragments ++ more) := by
  refine h.append List.length_replicate ?_ ?_
  · intro i f hf hblock
    exact absurd hblock (hmore f (List.mem_of_getElem? hf))
  · intro i l hl
    cases List.eq_of_mem_replicate (List.mem_of_getElem? hl)

/-! ## Lines are no blocks -/

/-- Arenas with lines and texts appended. -/
def AppendsInline (a a' : Arenas) : Prop := ∃ more, a'.fragments = a.fragments ++ more ∧ ∀ f ∈ more, ¬f.IsBlock

/-- Nothing appends nothing. -/
theorem AppendsInline.refl (a : Arenas) : AppendsInline a a :=
  ⟨[], (List.append_nil _).symm, fun _ hf => absurd hf List.not_mem_nil⟩

/-- Appending twice is appending. -/
theorem AppendsInline.trans {a b c : Arenas} (h : AppendsInline a b) (h' : AppendsInline b c) : AppendsInline a c := by
  obtain ⟨more, hb, hmore⟩ := h
  obtain ⟨more', hc, hmore'⟩ := h'
  refine ⟨more ++ more', by rw [hc, hb, List.append_assoc], fun f hf => ?_⟩
  rcases List.mem_append.1 hf with hf | hf
  · exact hmore f hf
  · exact hmore' f hf

/-- A fragment that is no block is appended inline. -/
theorem appendsInline_push (a : Arenas) (style : LayoutStyle) {f : StyleId → Fragment}
    (hf : ¬(f ⟨a.styles.length⟩).IsBlock) : AppendsInline a (a.push style f).2 := by
  refine ⟨[f ⟨a.styles.length⟩], rfl, fun g hg => ?_⟩
  rw [List.mem_singleton.1 hg]
  exact hf

/-- The texts of a line are appended inline. -/
theorem appendsInline_pushTexts (args : Inline.InlineArgs) (items : List InlineItem) (line : LineBox) (lineTop : Au)
    (groups : List Inline.RunGroup) (a : Arenas) :
    AppendsInline a (Inline.pushTexts args items line lineTop groups a).2 := by
  induction groups generalizing a with
  | nil => exact AppendsInline.refl a
  | cons group groups ih =>
    have htext : AppendsInline a (Inline.pushText args items line lineTop group a).2 := by
      refine appendsInline_push a _ ?_
      rintro (h | h) <;> cases h
    exact htext.trans (ih _)

/-- The lines of a leaf are appended inline. -/
theorem appendsInline_buildFragments (args : Inline.InlineArgs) (items : List InlineItem) (lines : List LineBox) (cursorY : Au)
    (a : Arenas) : AppendsInline a (Inline.buildFragments args items lines cursorY a).2 := by
  induction lines generalizing cursorY a with
  | nil => exact AppendsInline.refl a
  | cons line lines ih =>
    have hline : AppendsInline a (Inline.pushLine args items line cursorY a).2 := by
      refine (appendsInline_pushTexts args items line _ (Inline.groupRuns line) a).trans (appendsInline_push _ _ ?_)
      rintro (h | h) <;> cases h
    exact hline.trans (ih _ _)

/-- Inline layout appends inline. -/
theorem appendsInline_layout {args : Inline.InlineArgs} {a : Arenas} {r : (List FragmentId × Au) × Arenas}
    (h : Inline.layout shape tree document args a = .ok r) : AppendsInline a r.2 := by
  simp only [Inline.layout] at h
  cases hlines : shape (Inline.collectPieces tree document tree.len args.children true) args.containerStyle args.contentWidth with
  | error e =>
    rw [hlines] at h
    cases h
  | ok lines =>
    rw [hlines] at h
    obtain rfl := Except.ok.inj h
    exact appendsInline_buildFragments args _ lines .zero a

/-- The content of a leaf is its lines. -/
theorem leafContent_inline (shape : Shaper) (tree : BoxTree) (document : Document) (child : LayoutBox)
    (placement : ChildPlacement) (a : Arenas) (error : Option LayoutError) :
    AppendsInline a (leafContent shape tree document child placement a error).1.2 ∧
      LinesFrom shape tree document (contentOriginOf placement.origin placement.model) placement.model.contentWidth child
        (leafContent shape tree document child placement a error).1.1.1 := by
  unfold leafContent
  split
  · exact ⟨AppendsInline.refl a, .inl rfl⟩
  · cases hlayout : Inline.layout shape tree document
        ⟨child.children, child.style, contentOriginOf placement.origin placement.model, placement.model.contentWidth⟩ a with
    | error e =>
      simp only [hlayout]
      exact ⟨AppendsInline.refl a, .inl rfl⟩
    | ok r =>
      simp only [hlayout]
      exact ⟨appendsInline_layout hlayout, .inr ⟨a, r, hlayout, rfl⟩⟩

/-! ## The walk -/

section

variable (Γ : FloatOps) (shape : Shaper) (tree : BoxTree) (document : Document) (viewport : Size)

/-- The first children of a frame's box are done, and were placed from the frame's content origin. -/
def ChildrenLaid (blocks : List (Option LaidBlock)) (frame : Frame) (n : Nat) : Prop :=
  List.Forall₂ (ChildAt Γ shape tree document viewport blocks frame.contentOrigin frame.contentWidth)
    (frame.blockChildren.take n) frame.childrenFragIds

/-- The frames of a stack are those of containers from the root on, each placed from the content origin of the one below it,
whose earlier children are done. -/
inductive StackLaid (blocks : List (Option LaidBlock)) : List Frame → Prop where
  | root {frame : Frame} {box : LayoutBox} (hf : OpenFrame Γ tree viewport tree.root box frame) : StackLaid blocks [frame]
  | push {child parent : Frame} {stack : List Frame} {c : BoxId} {box : LayoutBox} {k : Nat}
      (hs : StackLaid blocks (parent :: stack)) (hf : OpenFrame Γ tree viewport c box child) (hk : parent.nextChild = k + 1)
      (hc : parent.blockChildren[k]? = some c) (hdone : ChildrenLaid Γ shape tree document viewport blocks parent k)
      (hplaced : PlacedFrom Γ shape tree document viewport parent.contentOrigin parent.contentWidth c child.finished) :
      StackLaid blocks (child :: parent :: stack)

/-- The blocks of a state of the walk. -/
structure WalkLaid (blocks : List (Option LaidBlock)) (s : LayoutState) : Prop where
  reaches : Reaches Γ shape tree document viewport s
  stack : StackLaid Γ shape tree document viewport blocks s.stack
  top : ∀ frame ∈ s.stack.head?, ChildrenLaid Γ shape tree document viewport blocks frame frame.nextChild
  blocks : BlocksLaid Γ shape tree document viewport blocks s.arenas.fragments

end

/-- Children stay laid as more blocks are. -/
theorem ChildrenLaid.append {blocks : List (Option LaidBlock)} (more : List (Option LaidBlock)) {frame : Frame} {n : Nat}
    (h : ChildrenLaid Γ shape tree document viewport blocks frame n) :
    ChildrenLaid Γ shape tree document viewport (blocks ++ more) frame n :=
  h.imp fun _ _ hc => hc.append more

/-- One more child of a frame's box is done. -/
theorem ChildrenLaid.childDone {blocks : List (Option LaidBlock)} {frame : Frame} {k : Nat} {c : BoxId} {g : FragmentId}
    (h : ChildrenLaid Γ shape tree document viewport blocks frame k) (hc : frame.blockChildren[k]? = some c)
    (hg : ChildAt Γ shape tree document viewport blocks frame.contentOrigin frame.contentWidth c g) (origin : Point)
    (usedHeight margin : Au) :
    ChildrenLaid Γ shape tree document viewport blocks (frame.childDone origin usedHeight margin g) (k + 1) := by
  have htake : frame.blockChildren.take (k + 1) = frame.blockChildren.take k ++ [c] := by
    rw [List.take_add_one, hc]
    rfl
  show List.Forall₂ _ (frame.blockChildren.take (k + 1)) (frame.childrenFragIds ++ [g])
  rw [htake]
  exact List.rel_append h (.cons hg .nil)

/-- The frames stay laid as more blocks are. -/
theorem StackLaid.append {blocks : List (Option LaidBlock)} (more : List (Option LaidBlock)) {stack : List Frame}
    (h : StackLaid Γ shape tree document viewport blocks stack) :
    StackLaid Γ shape tree document viewport (blocks ++ more) stack := by
  induction h with
  | root hf => exact .root hf
  | push _ hf hk hc hdone hplaced ih => exact .push ih hf hk hc (hdone.append more) hplaced

/-- The top frame is open. -/
theorem StackLaid.openFrame {blocks : List (Option LaidBlock)} {frame : Frame} {stack : List Frame}
    (h : StackLaid Γ shape tree document viewport blocks (frame :: stack)) :
    ∃ id box, OpenFrame Γ tree viewport id box frame := by
  cases h with
  | root hf => exact ⟨_, _, hf⟩
  | push _ hf => exact ⟨_, _, hf⟩

/-- The top frame goes on to its next child. -/
theorem StackLaid.next {blocks : List (Option LaidBlock)} {frame : Frame} {stack : List Frame}
    (h : StackLaid Γ shape tree document viewport blocks (frame :: stack)) :
    StackLaid Γ shape tree document viewport blocks (frame.next :: stack) := by
  cases h with
  | root hf => exact .root ⟨hf.1.next, hf.2⟩
  | push hs hf hk hc hdone hplaced => exact .push hs ⟨hf.1.next, hf.2⟩ hk hc hdone hplaced

/-- The top frame takes a child that is done. -/
theorem StackLaid.childDone {blocks : List (Option LaidBlock)} {frame : Frame} {stack : List Frame}
    (h : StackLaid Γ shape tree document viewport blocks (frame :: stack)) (origin : Point) (usedHeight margin : Au)
    (g : FragmentId) :
    StackLaid Γ shape tree document viewport blocks (frame.childDone origin usedHeight margin g :: stack) := by
  cases h with
  | root hf => exact .root ⟨hf.1.childDone _ _ _ _, hf.2⟩
  | push hs hf hk hc hdone hplaced => exact .push hs ⟨hf.1.childDone _ _ _ _, hf.2⟩ hk hc hdone hplaced

/-- A frame whose children are all done is a block with these children. -/
theorem laid_of_frame (hsides : SidesNonNeg Γ tree viewport) (hfits : Unsaturated Γ shape tree document viewport)
    {blocks : List (Option LaidBlock)} {id : BoxId} {box : LayoutBox} {frame : Frame} {n : Nat} {a : Arenas}
    (hf : OpenFrame Γ tree viewport id box frame) (hdone : ChildrenLaid Γ shape tree document viewport blocks frame n)
    (hn : frame.blockChildren.length ≤ n) (hpush : Pushes Γ shape tree document viewport frame.finished a) (style : StyleId) :
    Laid Γ shape tree document viewport blocks ⟨id, frame.finished⟩ (frame.finished.fragment style) := by
  refine blockBoxes_of_madeOf hsides hfits hf.madeOf hpush hf.1.contentOrigin (fun _ => ?_) (fun hk => ?_) style
  · rw [ChildrenLaid, List.take_of_length_le hn, hf.1.children] at hdone
    exact hdone
  · rw [hf.1.container] at hk
    cases hk

/-- A leaf in its place is a block with lines. -/
theorem laid_of_leaf (hsides : SidesNonNeg Γ tree viewport) (hfits : Unsaturated Γ shape tree document viewport)
    (blocks : List (Option LaidBlock)) {id : BoxId} {child : LayoutBox} {placement : ChildPlacement} {a : Arenas}
    {error : Option LayoutError} (hg : tree.get id = some child) (hk : isBlockContainer tree id = false)
    (hcb : ContainingBlock Γ tree viewport id placement.cbWidth placement.cbHeight)
    (hmodel : placement.model = resolveBoxModel Γ child.style placement.cbWidth placement.cbHeight) {b : Finished} {a' : Arenas}
    (hb : leafBlock shape tree document child placement a error = (b, a'))
    (hpush : Pushes Γ shape tree document viewport b a') (style : StyleId) :
    Laid Γ shape tree document viewport blocks ⟨id, b⟩ (b.fragment style) := by
  obtain ⟨rfl, rfl⟩ := Prod.mk.inj hb
  refine blockBoxes_of_madeOf hsides hfits (madeOf_finishedLeaf hg hcb hmodel _ _ _) hpush (congrArg _ hmodel) (fun h => ?_)
    (fun _ => (leafContent_inline shape tree document child placement a error).2) style
  rw [hk] at h
  cases h

/-- The block that was just laid. -/
theorem blockAt_push {blocks : List (Option LaidBlock)} {a : Arenas}
    (h : BlocksLaid Γ shape tree document viewport blocks a.fragments) (l : LaidBlock) (b : Finished) :
    blockAt (blocks ++ [some l]) (b.push Γ a).1 = some l := by
  rw [b.push_eq, blockAt, ← h.len, List.getElem?_concat_length]
  rfl

/-- A leaf and its lines among the blocks of arenas. -/
theorem BlocksLaid.leaf (hsides : SidesNonNeg Γ tree viewport) (hfits : Unsaturated Γ shape tree document viewport)
    {blocks : List (Option LaidBlock)} {id : BoxId} {child : LayoutBox} {placement : ChildPlacement} {a : Arenas}
    {error : Option LayoutError} (h : BlocksLaid Γ shape tree document viewport blocks a.fragments)
    (hg : tree.get id = some child) (hk : isBlockContainer tree id = false)
    (hcb : ContainingBlock Γ tree viewport id placement.cbWidth placement.cbHeight)
    (hmodel : placement.model = resolveBoxModel Γ child.style placement.cbWidth placement.cbHeight) {b : Finished} {a' : Arenas}
    (hb : leafBlock shape tree document child placement a error = (b, a'))
    (hpush : Pushes Γ shape tree document viewport b a') :
    ∃ more, BlocksLaid Γ shape tree document viewport (blocks ++ more) (b.push Γ a').2.fragments ∧
      blockAt (blocks ++ more) (b.push Γ a').1 = some ⟨id, b⟩ := by
  obtain ⟨lines, hlines, hinline⟩ := (leafContent_inline shape tree document child placement a error).1
  have ha' : a'.fragments = a.fragments ++ lines := (congrArg (fun r => r.2.fragments) hb).symm.trans hlines
  have hlaid : BlocksLaid Γ shape tree document viewport (blocks ++ List.replicate lines.length none) a'.fragments := by
    rw [ha']
    exact h.inline hinline
  refine ⟨List.replicate lines.length none ++ [some ⟨id, b⟩], ?_, ?_⟩
  · rw [← List.append_assoc]
    exact hlaid.push hfits hpush (laid_of_leaf hsides hfits _ hg hk hcb hmodel hb hpush _)
  · rw [← List.append_assoc]
    exact blockAt_push hlaid _ b

/-- What the top frame leaves when it is done. -/
theorem appended_top {s : LayoutState} {top : Frame} {stack : List Frame} (hstack : s.stack = top :: stack)
    (hdone : top.blockChildren.length ≤ top.nextChild) :
    appended Γ shape tree document s = some (top.finished, s.arenas) := by
  simp only [appended, hstack, List.getElem?_eq_none hdone]

/-- Every iteration keeps the blocks. -/
theorem WalkLaid.step (inv : tree.Invariant document) (hsides : SidesNonNeg Γ tree viewport)
    (hfits : Unsaturated Γ shape tree document viewport) {blocks : List (Option LaidBlock)} {s s' : LayoutState}
    (h : WalkLaid Γ shape tree document viewport blocks s) (hb : runStep Γ shape tree document viewport s = .inl s') :
    ∃ blocks', WalkLaid Γ shape tree document viewport blocks' s' := by
  obtain ⟨hreaches, hstack, htop, hblocks⟩ := h
  have hreaches' : Reaches Γ shape tree document viewport s' := by
    obtain ⟨root, hroot, hk, hsteps⟩ := hreaches
    exact ⟨root, hroot, hk, hsteps.trans (While.Steps.one hb)⟩
  cases advances_of_runStep hb with
  | missing hc hg =>
    obtain ⟨p, box, hf, -⟩ := hstack.openFrame
    exact absurd hg (hf.child_ne_none inv (List.mem_of_getElem? hc))
  | @container top stack arenas memo error id child hc hg hk =>
    obtain ⟨p, box, hf, -⟩ := hstack.openFrame
    have hcb := hf.child (List.mem_of_getElem? hc)
    refine ⟨blocks, hreaches', .push hstack.next (k := top.nextChild) (?_ : OpenFrame Γ tree viewport id child _) rfl hc
      (htop _ rfl) ?_, ?_, hblocks⟩
    · exact ⟨⟨hg, hcb, hk, rfl, rfl, rfl, rfl, rfl, rfl, rfl, rfl, rfl⟩, rfl⟩
    · exact ⟨rfl, _, top, child, hreaches, ⟨rfl, hc, hg⟩, rfl, rfl, rfl⟩
    · rintro _ ⟨⟩
      exact .nil
  | @leaf top stack arenas arenas' memo error error' id child fragId usedHeight hc hg hk hl =>
    obtain ⟨p, box, hf, -⟩ := hstack.openFrame
    have hcb := hf.child (List.mem_of_getElem? hc)
    have happended : appended Γ shape tree document ⟨top :: stack, arenas, memo, error⟩
        = some (leafBlock shape tree document child (placeChild Γ tree id child.style top memo).1 arenas error) := by
      simp only [appended, hc, hg, hk, Bool.false_eq_true, if_false]
    rcases hleaf : leafBlock shape tree document child (placeChild Γ tree id child.style top memo).1 arenas error with ⟨b, a'⟩
    have hpush := Pushes.iteration hreaches (happended.trans (congrArg some hleaf))
    obtain ⟨more, hlaid, hat⟩ := hblocks.leaf hsides hfits hg hk hcb rfl hleaf hpush
    have hresult : layoutLeaf Γ shape tree document child (placeChild Γ tree id child.style top.next memo).1 arenas error
        = (((b.push Γ a').1, b.borderBoxSize.h), (b.push Γ a').2,
          (leafContent shape tree document child (placeChild Γ tree id child.style top memo).1 arenas error).2) := by
      obtain ⟨rfl, rfl⟩ := Prod.mk.inj hleaf
      rfl
    obtain ⟨hfst, hsnd⟩ := Prod.mk.inj (hl.symm.trans hresult)
    obtain ⟨rfl, rfl⟩ := Prod.mk.inj hfst
    obtain ⟨rfl, rfl⟩ := Prod.mk.inj hsnd
    refine ⟨blocks ++ more, hreaches', (hstack.append more).next.childDone _ _ _ _, ?_, hlaid⟩
    rintro _ ⟨⟩
    have htop' : ChildrenLaid Γ shape tree document viewport (blocks ++ more) top.next top.nextChild := (htop top rfl).append more
    refine htop'.childDone hc ?_ _ _ _
    obtain ⟨rfl, rfl⟩ := Prod.mk.inj hleaf
    exact ⟨_, hat, rfl, _, top, child, hreaches, ⟨rfl, hc, hg⟩, rfl, rfl, rfl⟩
  | @finish top parent stack arenas memo error hdone =>
    cases hstack with
    | @push _ _ _ c box k hs hf hk hc hparent hplaced =>
      have hpush := Pushes.iteration hreaches (appended_top rfl hdone)
      have hlaid := hblocks.push hfits hpush (laid_of_frame hsides hfits hf (htop top rfl) hdone hpush _)
      refine ⟨blocks ++ [some ⟨c, top.finished⟩], hreaches', (hs.append _).childDone _ _ _ _, ?_, hlaid⟩
      rintro _ ⟨⟩
      show ChildrenLaid Γ shape tree document viewport _ _ parent.nextChild
      rw [hk]
      exact (hparent.append _).childDone hc ⟨top.finished, blockAt_push hblocks _ _, hplaced⟩ _ _ _

/-- At first no block is laid. -/
theorem blocksLaid_nil : BlocksLaid Γ shape tree document viewport [] [] := by
  refine ⟨rfl, ?_, ?_⟩
  · intro i f hf
    cases hf
  · intro i l hl
    cases hl

/-- The state in which the walk of a container starts. -/
theorem WalkLaid.start {root : LayoutBox} (hroot : tree.get tree.root = some root)
    (hk : isBlockContainer tree tree.root = true) :
    WalkLaid Γ shape tree document viewport []
      (startState tree viewport root (resolveBoxModel Γ root.style viewport.w (some viewport.h))) where
  reaches := ⟨root, hroot, hk, While.Steps.refl _⟩
  stack := by
    refine .root (?_ : OpenFrame Γ tree viewport tree.root root _)
    exact ⟨⟨hroot, .root, hk, rfl, rfl, rfl, rfl, rfl, rfl, rfl, rfl, rfl⟩, rfl⟩
  top := by
    rintro _ ⟨⟩
    exact .nil
  blocks := blocksLaid_nil

/-- The blocks of a layout with their boxes: every fragment of a box is known as one. -/
structure LayoutLaid (Γ : FloatOps) (shape : Shaper) (tree : BoxTree) (document : Document) (viewport : Size)
    (fragments : FragmentTree) (blocks : List (Option LaidBlock)) : Prop where
  box : ∀ c g, FragmentOf tree fragments c g → ∃ b, blockAt blocks g = some ⟨c, b⟩
  blocks : BlocksLaid Γ shape tree document viewport blocks fragments.fragments

/-- The children of a container's fragment are blocks of the container's children, so the root determines them all. -/
theorem BlocksLaid.layoutLaid {fragments : FragmentTree} {blocks : List (Option LaidBlock)}
    (h : BlocksLaid Γ shape tree document viewport blocks fragments.fragments) {b : Finished}
    (hroot : blockAt blocks fragments.root = some ⟨tree.root, b⟩) :
    LayoutLaid Γ shape tree document viewport fragments blocks := by
  refine ⟨?_, h⟩
  intro c g hg
  induction hg with
  | root => exact ⟨b, hroot⟩
  | @child p c g g' k hp hk hc hg ih =>
    obtain ⟨pb, hpb⟩ := ih
    obtain ⟨f, hf, box, hbox⟩ := h.laid g.index _ (Option.join_eq_some_iff.1 hpb)
    have hkids : tree.kids p = box.children := by
      rw [BoxTree.kids, show tree.get p = some box from hbox.resolves]
      rfl
    have hfkids : fragments.kids g = f.children := Paint.kids_eq hf
    rw [hkids] at hc
    rw [hfkids] at hg
    obtain ⟨hlt, rfl⟩ := List.getElem?_eq_some_iff.1 hc
    obtain ⟨hlt', rfl⟩ := List.getElem?_eq_some_iff.1 hg
    obtain ⟨b', hb', -⟩ := (List.forall₂_iff_get.1 (hbox.children hk)).2 k hlt hlt'
    exact ⟨b', hb'⟩

/-- When the walk returns, it appends the block of the root. -/
theorem WalkLaid.finish (hsides : SidesNonNeg Γ tree viewport) (hfits : Unsaturated Γ shape tree document viewport)
    {blocks : List (Option LaidBlock)} {s : LayoutState} {fragments : FragmentTree} {error : Option LayoutError}
    (h : WalkLaid Γ shape tree document viewport blocks s)
    (hlast : runStep Γ shape tree document viewport s = .inr (fragments, error)) :
    ∃ blocks', LayoutLaid Γ shape tree document viewport fragments blocks' := by
  obtain ⟨hreaches, hstack, htop, hblocks⟩ := h
  obtain ⟨stack, arenas, memo, e⟩ := s
  obtain ⟨rfl, -⟩ | ⟨top, rfl, hdone, hfinal⟩ := returns_of_runStep hlast
  · cases hstack
  · cases hstack with
    | @root _ box hf =>
      have hpush := Pushes.iteration hreaches (appended_top rfl hdone)
      have hlaid := hblocks.push hfits hpush (laid_of_frame hsides hfits hf (htop top rfl) hdone hpush _)
      obtain ⟨rfl, rfl⟩ := Prod.mk.inj (Sum.inr.inj hfinal)
      exact ⟨_, hlaid.layoutLaid (blockAt_push hblocks _ top.finished)⟩

instance (b : Finished) (a : Arenas) : Decidable (b.AppendFits Γ a) :=
  decidable_of_iff (b.Fits ∧
      ∀ f ∈ (a.fragments ++ [b.fragment ⟨a.styles.length⟩]).drop b.fragStart, f.IsBlock → f.ShiftFits (b.offset Γ))
    ⟨fun ⟨hfits, hshifts⟩ => ⟨hfits, hshifts⟩, fun ⟨hfits, hshifts⟩ => ⟨hfits, hshifts⟩⟩

end Block

end ChromeLight
