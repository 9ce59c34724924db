import ChromeLight.Lemmas.Outline
import ChromeLight.Theorems.Margins

/-!
# Relative positioning and text

A relative offset moves the rects of the fragments below a box, but not the glyph runs of the text among them, which have an
absolute place of their own. The layouts of two trees that differ in positions only have the same runs (`run_alike`), so
making a box relative takes its text along exactly if the offset is zero or there is no text (`textMoves_iff`).
-/

namespace ChromeLight

open Forest (Child)

/-- The tree with another position for one of its boxes. -/
def BoxTree.setPosition (tree : BoxTree) (id : BoxId) (position : Position) : BoxTree :=
  { tree with boxes := tree.boxes.modify id.index fun b => { b with style := { b.style with position } } }

theorem BoxTree.still_setPosition (tree : BoxTree) (id : BoxId) (position : Position) :
    (tree.setPosition id position).still = tree.still := by
  have h : ∀ (l : List LayoutBox) (i : Nat), (l.modify i fun b => { b with style := { b.style with position } }).map
      LayoutBox.still = l.map LayoutBox.still := by
    intro l i
    apply List.ext_getElem?
    intro j
    simp only [List.getElem?_map, List.getElem?_modify]
    cases l[j]? with
    | none => rfl
    | some b =>
      by_cases hij : i = j
      · simp only [hij, if_true, Option.map_some]
        rfl
      · simp only [hij, if_false]
        rfl
  simp only [BoxTree.still, BoxTree.setPosition, h]

namespace Block

variable {Γ : FloatOps} {shape : Shaper} {tree : BoxTree} {document : Document} {viewport : Size}

/-! ## Boxes and their fragments -/

/-- `c` is a block-level child of `p`. -/
def BlockChild (tree : BoxTree) (c p : BoxId) : Prop := isBlockContainer tree p = true ∧ c ∈ tree.kids p

/-- The fragment of a block: that of the root is the root, that of a child of a container has the same place among the
children of the container's fragment. -/
inductive FragmentOf (tree : BoxTree) (fragments : FragmentTree) : BoxId → FragmentId → Prop where
  | root : FragmentOf tree fragments tree.root fragments.root
  | child {p c : BoxId} {g g' : FragmentId} {k : Nat} (hp : FragmentOf tree fragments p g)
      (hk : isBlockContainer tree p = true) (hc : (tree.kids p)[k]? = some c) (hg : (fragments.kids g)[k]? = some g') :
      FragmentOf tree fragments c g'

/-- The shaper gives the inline content of a block a run of glyphs. -/
def HasRuns (Γ : FloatOps) (shape : Shaper) (tree : BoxTree) (document : Document) (viewport : Size) (c : BoxId) : Prop :=
  ∃ b w h, tree.get c = some b ∧ ContainingBlock Γ tree viewport c w h ∧ isBlockContainer tree c = false ∧
    ∃ line ∈ shapedLines shape tree document b (resolveBoxModel Γ b.style w h).contentWidth,
      ∃ group ∈ Inline.groupRuns line, group.runs ≠ []

/-- Every run of the text at or below a fragment starts in the one layout where it starts in the other, moved. -/
def TextMoves (fixed moved : FragmentTree) (g : FragmentId) (dx dy : Au) : Prop :=
  ∀ t, Relation.ReflTransGen (Child fixed.kids) t g → ∀ f, fixed.get t = some f → ∀ runs, f.kind = .text runs →
    ∃ f' runs', moved.get t = some f' ∧ f'.kind = .text runs' ∧
      List.Forall₂ (fun run run' : GlyphRun =>
        run'.origin.x.units = run.origin.x.units + dx.units ∧ run'.origin.y.units = run.origin.y.units + dy.units) runs runs'

/-- Moving the text at or below a fragment does not saturate. -/
def MoveFits (fixed : FragmentTree) (g : FragmentId) (dx dy : Au) : Prop :=
  ∀ t, Relation.ReflTransGen (Child fixed.kids) t g → ∀ f, fixed.get t = some f → ∀ runs, f.kind = .text runs →
    ∀ run ∈ runs, run.origin.x.AddFits dx ∧ run.origin.y.AddFits dy

/-! ## The outline below a box -/

/-- A box layout reaches resolves, if the root does. -/
theorem ContainingBlock.resolves (inv : tree.Invariant document) {root : LayoutBox} (hroot : tree.get tree.root = some root)
    {id : BoxId} {w : Au} {h : Option Au} (hcb : ContainingBlock Γ tree viewport id w h) : ∃ b, tree.get id = some b := by
  cases hcb with
  | root => exact ⟨root, hroot⟩
  | child _ hb hc => exact (inv.resolves _ _ hb _ hc).2

/-- The root resolves, if some box layout reaches does. -/
theorem ContainingBlock.root_resolves {id : BoxId} {b : LayoutBox} {w : Au} {h : Option Au}
    (hcb : ContainingBlock Γ tree viewport id w h) (hb : tree.get id = some b) : ∃ root, tree.get tree.root = some root := by
  induction hcb generalizing b with
  | root => exact ⟨b, hb⟩
  | child _ hp _ ih => exact ih hp

/-- The trees of the outline of a forest of boxes that resolve are the outlines of its trees. -/
theorem trees_outline (Γ : FloatOps) (shape : Shaper) (document : Document) (w : Au) (h : Option Au) (F : Forest BoxId)
    (hres : ∀ id ∈ F.roots, ∃ b, tree.get id = some b) {k : Nat} {id : BoxId} {K : Forest BoxId} (hk : F.trees[k]? = some (id, K)) :
    ∃ d D, (outline Γ shape tree document w h F).trees[k]? = some (d, D) ∧
      outline Γ shape tree document w h (.cons id K .nil) = .cons d D .nil := by
  induction F generalizing k with
  | nil => cases hk
  | cons x L R _ ihR =>
    obtain ⟨b, hb⟩ := hres x List.mem_cons_self
    cases k with
    | zero =>
      obtain ⟨rfl, rfl⟩ := Prod.mk.inj (Option.some.inj hk)
      simp only [outline, hb]
      exact ⟨_, _, rfl, rfl⟩
    | succ k =>
      obtain ⟨d, D, hd, he⟩ := ihR (fun id hid => hres id (List.mem_cons_of_mem _ hid)) hk
      refine ⟨d, D, ?_, he⟩
      simp only [outline, hb]
      exact hd

/-- The fragment of a block has the outline of the block's tree. -/
theorem outline_of_fragmentOf (inv : tree.Invariant document) {root : LayoutBox} (hroot : tree.get tree.root = some root)
    {B : Forest BoxId} (hroots : B.roots = [tree.root]) (hB : B.Follows tree.kids) {fragments : FragmentTree}
    (ho : HasOutline fragments (outline Γ shape tree document viewport.w (some viewport.h) B)) {b : BoxId} {g : FragmentId}
    (hg : FragmentOf tree fragments b g) :
    ∃ w h K start, ContainingBlock Γ tree viewport b w h ∧ (Forest.cons b K .nil).Follows tree.kids ∧
      (Postorder.ids FragmentId.mk start (outline Γ shape tree document w h (.cons b K .nil))).roots = [g] ∧
      Postorder.Stored FragmentId.mk fragments.arenas.entry start (outline Γ shape tree document w h (.cons b K .nil)) := by
  induction hg with
  | root =>
    obtain ⟨K, rfl⟩ := Forest.eq_cons_of_roots hroots
    exact ⟨viewport.w, some viewport.h, K, 0, .root, hB, ho.root.symm, ho.stored⟩
  | @child p c g g' k hp hk hc hg ih =>
    obtain ⟨w, h, K, start, hcb, ⟨hK, hK', -⟩, hids, hst⟩ := ih
    obtain ⟨pb, hpb⟩ := hcb.resolves inv hroot
    simp only [outline, hpb, hk, if_true] at hids hst
    obtain ⟨he, hst, -⟩ := hst
    -- the children of the fragment are the roots of the outline of the children
    have hg' := List.head_eq_of_cons_eq hids
    rw [hg'] at he
    have hkids : fragments.kids g = (Postorder.ids FragmentId.mk start (outline Γ shape tree document
        (resolveBoxModel Γ pb.style w h).contentWidth (resolveBoxModel Γ pb.style w h).knownHeight K)).roots := by
      rw [← ho.kids_eq, Postorder.kids, he]
      rfl
    rw [← hK] at hc
    obtain ⟨Kc, hKc, hfollows⟩ := Forest.exists_tree_of_root hc
    have hchild : ∀ id ∈ K.roots, id ∈ pb.children := by
      intro id hid
      rw [hK, BoxTree.kids, hpb] at hid
      exact hid
    obtain ⟨d, D, hd, hout⟩ := trees_outline Γ shape document
      (resolveBoxModel Γ pb.style w h).contentWidth (resolveBoxModel Γ pb.style w h).knownHeight K
      (fun id hid => (inv.resolves p pb hpb id (hchild id hid)).2) hKc
    obtain ⟨start', hroot', hst'⟩ := hst.tree_of_root hd
    refine ⟨_, _, Kc, start', hcb.child hpb (hchild c (List.mem_of_getElem? hc)), hfollows _ hK', ?_, ?_⟩
    · rw [hout]
      rw [hkids, hroot'] at hg
      exact congrArg (fun x => [x]) (Option.some.inj hg)
    · rw [hout]
      exact hst'

/-! ## The text below a box -/

/-- Whether an outline's fragment holds a run of glyphs. -/
def HoldsRuns (d : FragmentData) : Prop := ∃ runs, d.kind = .text runs ∧ runs ≠ []

theorem textsOutline_holdsRuns (style : LayoutStyle) (items : List InlineItem) (groups : List Inline.RunGroup) :
    (∃ d ∈ (Inline.textsOutline style items groups).preorder, HoldsRuns d) ↔ ∃ group ∈ groups, group.runs ≠ [] := by
  induction groups with
  | nil => simp [Inline.textsOutline, Forest.preorder]
  | cons group groups ih =>
    have hgroup : HoldsRuns (Inline.textData style items group) ↔ group.runs ≠ [] := by
      constructor
      · rintro ⟨runs, hk, hne⟩ h
        cases hk
        exact hne (by rw [h]; rfl)
      · intro h
        exact ⟨_, rfl, fun h' => h (List.map_eq_nil_iff.1 h')⟩
    simp only [Inline.textsOutline, Forest.preorder, List.nil_append, List.exists_mem_cons_iff, ih, hgroup]

theorem linesOutline_holdsRuns (style : LayoutStyle) (items : List InlineItem) (lines : List LineBox) :
    (∃ d ∈ (Inline.linesOutline style items lines).preorder, HoldsRuns d) ↔
      ∃ line ∈ lines, ∃ group ∈ Inline.groupRuns line, group.runs ≠ [] := by
  induction lines with
  | nil => simp [Inline.linesOutline, Forest.preorder]
  | cons line lines ih =>
    have hline : ¬HoldsRuns ⟨none, .line, style⟩ := by
      rintro ⟨runs, hk, -⟩
      cases hk
    simp only [Inline.linesOutline, Forest.preorder, List.exists_mem_cons_iff, hline, false_or, List.mem_append, or_and_right,
      exists_or, ih, textsOutline_holdsRuns]

/-- The outline of a forest of boxes holds a run exactly if the shaper gives one to a block at or below one of its roots. -/
theorem outline_holdsRuns (shape : Shaper) (inv : tree.Invariant document) (F : Forest BoxId) (hF : F.Follows tree.kids) (w : Au)
    (h : Option Au) (hroots : ∀ id ∈ F.roots, ContainingBlock Γ tree viewport id w h ∧ ∃ b, tree.get id = some b) :
    (∃ d ∈ (outline Γ shape tree document w h F).preorder, HoldsRuns d) ↔
      ∃ r ∈ F.roots, ∃ c, Relation.ReflTransGen (BlockChild tree) c r ∧ HasRuns Γ shape tree document viewport c := by
  induction F generalizing w h with
  | nil => simp [outline, Forest.preorder, Forest.roots]
  | cons id K R ihK ihR =>
    obtain ⟨hK, hK', hR'⟩ := hF
    obtain ⟨hcb, b, hb⟩ := hroots id List.mem_cons_self
    have hR := ihR hR' w h fun x hx => hroots x (List.mem_cons_of_mem _ hx)
    have hblock : ¬HoldsRuns (blockData b) := by
      rintro ⟨runs, hk, -⟩
      simp only [blockData, blockKind] at hk
      split at hk <;> cases hk
    simp only [outline, hb, Forest.preorder, Forest.roots, List.exists_mem_cons_iff, hblock, false_or, List.mem_append,
      or_and_right, exists_or, hR]
    refine or_congr_left ?_
    cases hk : isBlockContainer tree id with
    | true =>
      have hkids : K.roots = b.children := by rw [hK, BoxTree.kids, hb]; rfl
      simp only [if_true]
      rw [ihK hK' _ _ fun x hx => ⟨hcb.child hb (hkids ▸ hx), (inv.resolves id b hb x (hkids ▸ hx)).2⟩]
      constructor
      · rintro ⟨r, hr, c, hc, hruns⟩
        exact ⟨c, hc.tail ⟨hk, hK ▸ hr⟩, hruns⟩
      · rintro ⟨c, hc, hruns⟩
        rcases Relation.ReflTransGen.cases_tail hc with rfl | ⟨r, hcr, -, hr⟩
        · obtain ⟨_, _, _, -, -, hleaf, -⟩ := hruns
          rw [hk] at hleaf
          cases hleaf
        · exact ⟨r, hK ▸ hr, c, hcr, hruns⟩
    | false =>
      simp only [Bool.false_eq_true, if_false, leafOutline, linesOutline_holdsRuns]
      constructor
      · intro hline
        exact ⟨id, .refl, b, w, h, hb, hcb, hk, hline⟩
      · rintro ⟨c, hc, hruns⟩
        rcases Relation.ReflTransGen.cases_tail hc with rfl | ⟨r, -, hcont, -⟩
        · obtain ⟨b', w', h', hb', hcb', -, hline⟩ := hruns
          obtain rfl := Option.some.inj (hb.symm.trans hb')
          obtain ⟨rfl, rfl⟩ := hcb.unique inv hcb'
          exact hline
        · rw [hk] at hcont
          cases hcont

/-! ## Making a box relative -/

/-- Fragment trees that are alike but for positions have fragments of the same kind, with the same runs. -/
theorem exists_kind_of_still {fixed moved : FragmentTree} (h : fixed.still = moved.still) {t : FragmentId} {f : Fragment}
    (hf : fixed.get t = some f) : ∃ f', moved.get t = some f' ∧ f'.kind = f.kind := by
  have hget := congrArg (fun tree : FragmentTree => tree.fragments[t.index]?) h
  simp only [FragmentTree.still, List.getElem?_map] at hget
  rw [show fixed.fragments[t.index]? = some f from hf] at hget
  obtain ⟨f', hf', he⟩ := Option.map_eq_some_iff.1 hget.symm
  have hk : f'.still.kind = f.still.kind := by rw [he]
  exact ⟨f', hf', hk⟩

/-- What an outline says has runs is a fragment with runs. -/
theorem exists_text_of_stored {fragments : FragmentTree} {start : Nat} {F : Forest FragmentData}
    (hst : Postorder.Stored FragmentId.mk fragments.arenas.entry start F) {d : FragmentData} (hd : d ∈ F.preorder)
    {runs' : List GlyphRun} (hkind : d.kind = .text runs') (hne : runs' ≠ []) :
    ∃ t ∈ (Postorder.ids FragmentId.mk start F).preorder, ∃ f runs, fragments.get t = some f ∧ f.kind = .text runs ∧
      runs ≠ [] := by
  obtain ⟨t, ht, children, he⟩ := hst.mem_preorder.1 hd
  obtain ⟨f, hf, hstyle⟩ := Option.bind_eq_some_iff.1 he
  obtain ⟨style, -, hdata⟩ := Option.map_eq_some_iff.1 hstyle
  obtain ⟨rfl, -⟩ := Prod.mk.inj hdata
  simp only at hkind
  cases hk : f.kind with
  | text runs =>
    rw [hk, FragmentKind.unplaced] at hkind
    cases hkind
    exact ⟨t, ht, f, runs, hf, hk, fun h0 => hne (by rw [h0]; rfl)⟩
  | block => rw [hk] at hkind; cases hkind
  | anonymousBlock => rw [hk] at hkind; cases hkind
  | line => rw [hk] at hkind; cases hkind

/-- The layouts of a tree and of the tree with one box made relative: the text below the box moves with it exactly if its
offset is zero or no text in it has a run of glyphs. -/
theorem textMoves_iff (hs : shape.IgnoresPosition) (inv : tree.Invariant document) {b : BoxId} {box : LayoutBox}
    (hbox : tree.get b = some box) {w : Au} {h : Option Au} (hcb : ContainingBlock Γ tree viewport b w h)
    {fixed moved : FragmentTree} {error error' : Option LayoutError}
    (hfixed : run Γ shape tree document viewport = .some (fixed, error))
    (hmoved : run Γ shape (tree.setPosition b .relative) document viewport = .some (moved, error')) {g : FragmentId}
    (hg : FragmentOf tree fixed b g) :
    TextMoves fixed moved g (resolveOffset Γ box.style w h).1 (resolveOffset Γ box.style w h).2 ↔
      resolveOffset Γ box.style w h = (.zero, .zero) ∨
        ∀ c, Relation.ReflTransGen (BlockChild tree) c b → ¬HasRuns Γ shape tree document viewport c := by
  obtain ⟨hstill, -⟩ := run_alike hs (tree.still_setPosition b .relative).symm hfixed hmoved
  obtain ⟨root, hroot⟩ := hcb.root_resolves hbox
  obtain ⟨B, hroots, hB⟩ := inv.exists_forest
  have ho : HasOutline fixed (outline Γ shape tree document viewport.w (some viewport.h) B) := by
    obtain ⟨fragments, error'', hrun, -, ho⟩ := run_outline Γ shape document viewport hroot hroots hB
    obtain ⟨rfl, -⟩ := Prod.mk.inj (Part.some_injective (hfixed.symm.trans hrun))
    exact ho
  obtain ⟨w', h', K, start, hcb', hK, hids, hst⟩ := outline_of_fragmentOf inv hroot hroots hB ho hg
  obtain ⟨rfl, rfl⟩ := hcb.unique inv hcb'
  have below : ∀ t, Relation.ReflTransGen (Child fixed.kids) t g ↔
      t ∈ (Postorder.ids FragmentId.mk start (outline Γ shape tree document w h (.cons b K .nil))).preorder := by
    intro t
    have hfollows := hst.follows
    rw [ho.kids_eq] at hfollows
    exact (hfollows.mem_preorder_iff hids t).symm
  have hruns := outline_holdsRuns shape inv (.cons b K .nil) hK w h (by
    intro id hid
    obtain rfl := List.mem_singleton.1 hid
    exact ⟨hcb, box, hbox⟩)
  constructor
  · intro hmoves
    by_cases hnone : ∀ c, Relation.ReflTransGen (BlockChild tree) c b → ¬HasRuns Γ shape tree document viewport c
    · exact .inr hnone
    · left
      obtain ⟨c, hc, hcr⟩ : ∃ c, Relation.ReflTransGen (BlockChild tree) c b ∧ HasRuns Γ shape tree document viewport c := by
        by_contra hno
        exact hnone fun c hc hcr => hno ⟨c, hc, hcr⟩
      obtain ⟨d, hd, runs', hkind, hne⟩ := hruns.2 ⟨b, List.mem_cons_self, c, hc, hcr⟩
      obtain ⟨t, ht, f, runs, hf, hk, hne⟩ := exists_text_of_stored hst hd hkind hne
      obtain ⟨run, hrun⟩ := List.exists_mem_of_ne_nil runs hne
      obtain ⟨f', runs', hf', hk', hmove⟩ := hmoves t ((below t).2 ht) f hf runs hk
      -- the two layouts have the same runs
      obtain ⟨f'', hf'', hsame⟩ := exists_kind_of_still hstill hf
      obtain rfl := Option.some.inj (hf'.symm.trans hf'')
      rw [hk', hk] at hsame
      cases hsame
      obtain ⟨hx, hy⟩ := List.forall₂_same.1 hmove run hrun
      exact Prod.ext (Au.ext_units (by rw [Au.units_zero]; omega)) (Au.ext_units (by rw [Au.units_zero]; omega))
  · intro hor t ht f hf runs hk
    obtain ⟨f', hf', hsame⟩ := exists_kind_of_still hstill hf
    refine ⟨f', runs, hf', hsame.trans hk, List.forall₂_same.2 ?_⟩
    intro run hrun
    rcases hor with hzero | hnone
    · rw [hzero]
      exact ⟨(Int.add_zero _).symm, (Int.add_zero _).symm⟩
    · obtain ⟨style, -, he⟩ := ho.entry_of_get hf
      have hmem := hst.mem_preorder.2 ⟨t, (below t).1 ht, _, he⟩
      obtain ⟨r, hr, c, hc, hcr⟩ := hruns.1 ⟨_, hmem, runs.map GlyphRun.unplaced, by rw [hk]; rfl,
        fun h0 => List.ne_nil_of_mem hrun (List.map_eq_nil_iff.1 h0)⟩
      obtain rfl := List.mem_singleton.1 hr
      exact absurd hcr (hnone c hc)

/-! ## A document whose text stays behind -/

/-- A shaper that makes one line of one glyph of any inline content. -/
def oneGlyph : Shaper := fun items style _ =>
  match items with
  | [] => .ok []
  | _ :: _ => .ok
    [{ height := style.lineHeight
       baseline := .fromPx 15
       runs := [⟨⟨0⟩, style.fontSize, .zero, [⟨91, .zero, .zero, .fromPx 8⟩], style.color⟩]
       runItems := [0] }]

theorem oneGlyph_ignoresPosition : oneGlyph.IgnoresPosition := by
  intro items style width
  cases items <;> rfl

/-- `html` around a `div` of that style with one letter in it. -/
def letter (style : LayoutStyle) : StyledDocument :=
  .ofOps (appendElement 0 1 "html" ++ appendElement 1 2 "div" ++
      [.create (.text ['x']), .appendChild (.fromIndex 2) (.fromIndex 3)])
    fun id => if id = .fromIndex 2 then some style else some (marginStyle 0 0)

/-- Its box tree. -/
def letterTree (style : LayoutStyle) : BoxTree where
  boxes :=
    [⟨some (.fromIndex 3), .inlineText (.fromIndex 3), .inheritedTextStyle .sample style, []⟩,
      ⟨some (.fromIndex 2), .block, style, [⟨0⟩]⟩, ⟨some (.fromIndex 1), .block, marginStyle 0 0, [⟨1⟩]⟩]
  root := ⟨2⟩

/-- Its fragments, when the rects from the `div` down have that left edge: the run of the letter starts at the left edge of
the window. -/
def letterFragments (style : LayoutStyle) (x : Au) : FragmentTree :=
  let block (x : Au) : Rect := ⟨⟨x, .zero⟩, ⟨window.w, .saturate 1152⟩⟩
  let text : Rect := ⟨⟨x, .zero⟩, ⟨.fromPx 8, .saturate 1152⟩⟩
  let run : GlyphRun := ⟨⟨0⟩, .fromPx 16, ⟨.zero, .fromPx 15⟩, [⟨91, .zero, .zero, .fromPx 8⟩], .black⟩
  { fragments :=
      [⟨some (.fromIndex 3), .text [run], text, text, text, ⟨0⟩, []⟩, ⟨none, .line, block x, block x, block x, ⟨1⟩, [⟨0⟩]⟩,
        ⟨some (.fromIndex 2), .block, block x, block x, block x, ⟨2⟩, [⟨1⟩]⟩,
        ⟨some (.fromIndex 1), .block, block .zero, block .zero, block .zero, ⟨3⟩, [⟨2⟩]⟩]
    styles := [.inheritedTextStyle .sample style, style, style, marginStyle 0 0]
    root := ⟨3⟩
    viewport := window }

/-- The layout of the letter, from three iterations of the walk. -/
theorem run_letterTree {style : LayoutStyle} {fragments : FragmentTree} {error : Option LayoutError}
    (hk : isBlockContainer (letterTree style) ⟨2⟩ = true)
    (h : While.run (runStep .sample oneGlyph (letterTree style) (letter style).document window) 3
      (startState (letterTree style) window ⟨some (.fromIndex 1), .block, marginStyle 0 0, [⟨1⟩]⟩
        (resolveBoxModel .sample (marginStyle 0 0) window.w (some window.h))) = some (fragments, error)) :
    run .sample oneGlyph (letterTree style) (letter style).document window = .some (fragments, error) := by
  unfold run
  simp only [show (letterTree style).root = ⟨2⟩ from rfl, hk, if_true]
  exact While.loop_of_run h

/-- A block with an offset of ten pixels to the right. -/
def offsetStyle (position : Position) : LayoutStyle :=
  { marginStyle 0 0 with position, offset := { Sides.uniform .auto with left := .px (.fromPx 10) } }

theorem build_offset : BoxGen.build .sample (letter (offsetStyle .static)) = some (letterTree (offsetStyle .static)) :=
  BoxGen.build_of_run 12 (.fromIndex 1) (by decide) (by decide) (by decide)

theorem setPosition_offset (position : Position) :
    (letterTree (offsetStyle .static)).setPosition ⟨1⟩ position = letterTree (offsetStyle position) := by
  cases position <;> decide

theorem run_offset (position : Position) :
    run .sample oneGlyph (letterTree (offsetStyle position)) (letter (offsetStyle .static)).document window
      = .some (letterFragments (offsetStyle position) (if position = .relative then .fromPx 10 else .zero), none) := by
  cases position
  · exact run_letterTree (by decide) (by decide +kernel)
  · exact run_letterTree (by decide) (by decide +kernel)

theorem containingBlock_offset : ContainingBlock .sample (letterTree (offsetStyle .static)) window ⟨1⟩ window.w none :=
  .child (b := ⟨some (.fromIndex 1), .block, marginStyle 0 0, [⟨1⟩]⟩) .root rfl List.mem_cons_self

theorem fragmentOf_offset :
    FragmentOf (letterTree (offsetStyle .static)) (letterFragments (offsetStyle .static) .zero) ⟨1⟩ ⟨2⟩ :=
  .child (k := 0) .root (by decide) rfl rfl

/-- The theorem at the `div` of that document. -/
theorem textMoves_iff_offset :
    TextMoves (letterFragments (offsetStyle .static) .zero) (letterFragments (offsetStyle .relative) (.fromPx 10)) ⟨2⟩
        (resolveOffset .sample (offsetStyle .static) window.w none).1
        (resolveOffset .sample (offsetStyle .static) window.w none).2 ↔
      resolveOffset .sample (offsetStyle .static) window.w none = (.zero, .zero) ∨
        ∀ c, Relation.ReflTransGen (BlockChild (letterTree (offsetStyle .static))) c ⟨1⟩ →
          ¬HasRuns .sample oneGlyph (letterTree (offsetStyle .static)) (letter (offsetStyle .static)).document window c :=
  textMoves_iff oneGlyph_ignoresPosition (BoxGen.invariant_of_build build_offset)
    (show (letterTree (offsetStyle .static)).get ⟨1⟩ = some ⟨some (.fromIndex 2), .block, offsetStyle .static, [⟨0⟩]⟩ from rfl)
    containingBlock_offset (run_offset .static) ((setPosition_offset .relative).symm ▸ run_offset .relative) fragmentOf_offset

/-- In that document the letter stays where it is when its `div` becomes relative. -/
theorem textMoves_false : ¬∀ (Γ : FloatOps) (shape : Shaper) (tree : BoxTree) (document : Document) (viewport : Size),
    shape.IgnoresPosition → tree.Invariant document → ∀ b box, tree.get b = some box → ∀ w h,
      ContainingBlock Γ tree viewport b w h → ∀ fixed moved error error',
        run Γ shape (tree.setPosition b .static) document viewport = .some (fixed, error) →
        run Γ shape (tree.setPosition b .relative) document viewport = .some (moved, error') → ∀ g,
          FragmentOf tree fixed b g →
          MoveFits fixed g (resolveOffset Γ box.style w h).1 (resolveOffset Γ box.style w h).2 →
            TextMoves fixed moved g (resolveOffset Γ box.style w h).1 (resolveOffset Γ box.style w h).2 := by
  intro h
  have hfits : ∀ t f, (letterFragments (offsetStyle .static) .zero).get t = some f → ∀ runs, f.kind = .text runs → ∀ run ∈ runs,
      run.origin = ⟨.zero, .fromPx 15⟩ := by
    rintro ⟨_ | _ | _ | _ | t⟩ f hf runs hk run hrun
    all_goals cases hf
    all_goals cases hk
    obtain rfl := List.mem_singleton.1 hrun
    rfl
  obtain ⟨f', runs', hf', hk', hmove⟩ := h .sample oneGlyph (letterTree (offsetStyle .static))
    (letter (offsetStyle .static)).document window oneGlyph_ignoresPosition (BoxGen.invariant_of_build build_offset) ⟨1⟩ _ rfl
    _ _ containingBlock_offset _ _ _ _ ((setPosition_offset .static).symm ▸ run_offset .static)
    ((setPosition_offset .relative).symm ▸ run_offset .relative) ⟨2⟩ fragmentOf_offset
    (fun t _ f hf runs hk run hrun => by
      rw [hfits t f hf runs hk run hrun]
      decide)
    ⟨0⟩ (.head (b := ⟨1⟩) List.mem_cons_self (.single List.mem_cons_self)) _ rfl _ rfl
  cases hf'
  cases hk'
  obtain ⟨hx, -⟩ := List.forall₂_same.1 hmove _ List.mem_cons_self
  revert hx
  decide

end Block

end ChromeLight
