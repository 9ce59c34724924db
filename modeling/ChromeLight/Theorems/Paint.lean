import ChromeLight.Lemmas.Paint

/-!
# What the painter paints

On any fragment tree, malformed or not, the painter returns and its clips are balanced, unless the tree has a viewport so far
below zero that no clip can be clamped to it and one of the fragments walked over clips (`balances_iff`). On a well-formed
tree, with the same exception, it is the recursion over the tree that paints each fragment, opens its clip, paints its subtree
and closes the clip (`paintsRecursively_iff`). What it culls is invisible if no run that starts outside the widened viewport
has a glyph further off than the margin (`culls_of_near`).
-/

namespace ChromeLight

open Forest (Child)

/-- Every id resolves, no fragment has two places in the tree, and none is below itself. -/
structure FragmentTree.WellFormed (tree : FragmentTree) : Prop where
  root : ∃ fragment, tree.get tree.root = some fragment
  resolves : ∀ id, ∀ child ∈ tree.kids id, ∃ fragment, tree.get child = some fragment
  uniqueParents : Forest.UniqueParents tree.kids
  acyclic : ∀ id, ¬Relation.TransGen (Child tree.kids) id id

/-- The forest of a well-formed tree: every fragment reachable from the root is in it once, and it fits the counter. -/
theorem FragmentTree.WellFormed.exists_forest {tree : FragmentTree} (h : tree.WellFormed) :
    ∃ F : Forest FragmentId, F.roots = [tree.root] ∧ F.Follows tree.kids ∧ F.preorder.Nodup ∧
      (∀ id ∈ F.preorder, ∃ fragment, tree.get id = some fragment) ∧ F.size ≤ tree.len := by
  have lt_len : ∀ id fragment, tree.get id = some fragment → id.index < tree.len := by
    intro id fragment hg
    exact (List.getElem?_eq_some_iff.1 hg).1
  have hfin : ∀ id, tree.kids id ≠ [] → id ∈ (List.range tree.len).map FragmentId.mk := by
    intro id hk
    cases hg : tree.get id with
    | none => exact absurd (by simp [FragmentTree.kids, hg]) hk
    | some fragment => exact List.mem_map.2 ⟨id.index, List.mem_range.2 (lt_len id fragment hg), rfl⟩
  have wf := Forest.wellFounded_child_of_acyclic _ hfin h.acyclic
  obtain ⟨F, hroots, hF⟩ := Forest.exists_follows wf [tree.root]
  have hn := hF.nodup_singleton h.uniqueParents wf hroots
  have hr : ∀ id ∈ F.preorder, ∃ fragment, tree.get id = some fragment := by
    intro id hid
    rcases Relation.ReflTransGen.cases_head ((hF.mem_preorder_iff hroots id).1 hid) with rfl | ⟨p, hp, -⟩
    · exact h.root
    · exact h.resolves p id hp
  refine ⟨F, hroots, hF, hn, hr, Forest.size_le_of_nodup hn FragmentId.index ?_ ?_⟩
  · rintro ⟨a⟩ ⟨b⟩ hab
    exact congrArg FragmentId.mk hab
  · intro id hid
    obtain ⟨fragment, hg⟩ := hr id hid
    exact lt_len id fragment hg

namespace Paint

variable {Γ : FloatOps} {tree : FragmentTree} {doc : Document}

/-- The rect the painter paints into. -/
def viewportBounds (tree : FragmentTree) : Rect := { origin := .zero, size := tree.viewport }

/-- The state in which the walk starts, after the items painted before it. -/
def walkStart (tree : FragmentTree) (items : List DisplayItem) : WalkState :=
  { stack := [.fragment tree.root], remaining := tree.len, items }

/-! ## Any tree -/

/-- The items painted before the walk. -/
def canvasItems (tree : FragmentTree) (canvas : CanvasBackground) : List DisplayItem :=
  match canvas.color with
  | some color => if (viewportBounds tree).isEmpty then [] else [.rect (viewportBounds tree) color]
  | none => []

/-- What the painter makes of how its walk ended. -/
theorem build_eq {canvas : CanvasBackground} {result : Option (List DisplayItem)}
    (hc : canvasBackground Γ tree doc = .some canvas)
    (hw : While.loop (walkStep Γ tree canvas.suppressedFragment (.new (viewportBounds tree)))
      (walkStart tree (canvasItems tree canvas)) = .some result) :
    build Γ tree doc = Part.ofOption (result.map fun items => { items, bounds := viewportBounds tree }) := by
  have hwalk : walk Γ tree canvas.suppressedFragment (.new (viewportBounds tree)) (canvasItems tree canvas)
      = Part.ofOption result := by
    have h : walk Γ tree canvas.suppressedFragment (.new (viewportBounds tree)) (canvasItems tree canvas)
        = (While.loop (walkStep Γ tree canvas.suppressedFragment (.new (viewportBounds tree)))
          (walkStart tree (canvasItems tree canvas))).bind Part.ofOption := rfl
    rw [h, hw, Part.bind_some]
  have h : build Γ tree doc = (do
      let items ← walk Γ tree canvas.suppressedFragment (.new (viewportBounds tree)) (canvasItems tree canvas)
      .some { items, bounds := viewportBounds tree }) := by
    unfold build
    rw [hc, Part.bind_eq_bind, Part.bind_some]
    rfl
  rw [h, hwalk, Part.bind_eq_bind]
  cases result with
  | none => exact Part.bind_none _
  | some items => exact Part.bind_some _ _

/-- A viewport that widening by the offscreen margin of 4096 pixels on every side does not leave inside out. -/
def Widenable (viewport : Size) : Prop :=
  -(2 * 4096 * 60) ≤ viewport.w.units ∧ -(2 * 4096 * 60) ≤ viewport.h.units

instance (viewport : Size) : Decidable (Widenable viewport) := inferInstanceAs (Decidable (_ ∧ _))

/-- The region is proper exactly if the viewport is not too small. -/
theorem proper_iff_widenable (tree : FragmentTree) :
    (InflatedViewport.new (viewportBounds tree)).Proper ↔ Widenable tree.viewport := by
  have margin : (Au.fromPx offscreenMarginPx).units = 245760 := by decide
  simp only [InflatedViewport.Proper, Widenable, InflatedViewport.new, viewportBounds, Rect.right, Rect.bottom, Point.zero,
    Au.le_iff, Au.units_saturatingAdd, Au.units_saturatingSub, Au.units_zero, margin]
  omega

/-- The painter returns exactly if it has no clip to clamp to a viewport that is inside out. -/
theorem build_dom_iff (Γ : FloatOps) (tree : FragmentTree) (doc : Document) :
    (build Γ tree doc).Dom ↔
      Widenable tree.viewport ∨ ∀ id ∈ firstFragments tree tree.len [tree.root], ¬Clips Γ tree id := by
  obtain ⟨canvas, hc⟩ := canvasBackground_terminates Γ tree doc
  obtain ⟨result, hw⟩ := walk_terminates Γ tree canvas.suppressedFragment (.new (viewportBounds tree))
    (walkStart tree (canvasItems tree canvas))
  have hpanic := walk_panics_iff hw
  rw [proper_iff_widenable] at hpanic
  have hahead : ahead tree (walkStart tree (canvasItems tree canvas)) = firstFragments tree tree.len [tree.root] := rfl
  rw [hahead] at hpanic
  rw [build_eq hc hw, Part.ofOption_dom, Option.isSome_map, ← Option.ne_none_iff_isSome, ne_eq, hpanic, not_and_or, not_not]
  push Not
  rfl

/-- The canvas opens and closes no clip. -/
theorem clipBracket_canvasItems (tree : FragmentTree) (canvas : CanvasBackground) :
    ∀ item ∈ canvasItems tree canvas, clipBracket item = none := by
  intro item hi
  unfold canvasItems at hi
  cases hc : canvas.color with
  | none => simp [hc] at hi
  | some color =>
    simp only [hc] at hi
    split at hi
    · cases hi
    · obtain rfl := List.mem_singleton.1 hi
      rfl

/-- The canvas has no brackets. -/
theorem clipWord_canvasItems (tree : FragmentTree) (canvas : CanvasBackground) : clipWord (canvasItems tree canvas) = [] :=
  List.filterMap_eq_nil_iff.2 (clipBracket_canvasItems tree canvas)

/-- The painter returns a list whose clips are balanced, and its walk pops at most one fragment more than the tree holds. -/
def Balances (Γ : FloatOps) (tree : FragmentTree) (doc : Document) : Prop :=
  ∃ canvas dl, canvasBackground Γ tree doc = .some canvas ∧ build Γ tree doc = .some dl ∧
    Brackets.Balanced (clipWord dl.items) ∧
    ∀ n, fragmentPops Γ tree canvas.suppressedFragment (.new (viewportBounds tree)) n
      (walkStart tree (canvasItems tree canvas)) ≤ tree.len + 1

/-- A list that the painter returns is balanced. -/
theorem balances_of_dom (h : (build Γ tree doc).Dom) : Balances Γ tree doc := by
  obtain ⟨canvas, hc⟩ := canvasBackground_terminates Γ tree doc
  obtain ⟨result, hw⟩ := walk_terminates Γ tree canvas.suppressedFragment (.new (viewportBounds tree))
    (walkStart tree (canvasItems tree canvas))
  have hb := build_eq hc hw
  cases result with
  | none =>
    rw [hb] at h
    exact absurd h Part.not_none_dom
  | some items =>
    refine ⟨canvas, _, hc, hb, walk_balanced ?_ hw, fun n => fragmentPops_le n _⟩
    unfold ClipsPending walkStart
    rw [clipWord_canvasItems]
    exact Brackets.Opens.nil

/-- On any fragment tree, well-formed or not, the painter returns a balanced list exactly if its viewport can be widened or
none of the fragments it walks over clips. -/
theorem balances_iff (Γ : FloatOps) (tree : FragmentTree) (doc : Document) :
    Balances Γ tree doc ↔
      Widenable tree.viewport ∨ ∀ id ∈ firstFragments tree tree.len [tree.root], ¬Clips Γ tree id := by
  rw [← build_dom_iff Γ tree doc]
  refine ⟨?_, balances_of_dom⟩
  rintro ⟨canvas, dl, -, hb, -⟩
  rw [hb]
  trivial

/-- One block with `overflow: hidden`, laid out for a viewport 9000 pixels below zero in width. -/
def insideOut : FragmentTree where
  fragments :=
    [{ node := none, kind := .block, borderBox := .zero, paddingBox := .zero, contentBox := .zero, style := ⟨0⟩
       children := [] }]
  styles := [{ LayoutStyle.initial .sample with overflow := .hidden }]
  root := ⟨0⟩
  viewport := ⟨.fromPx (-9000), .fromPx 600⟩

/-- The root clips. -/
theorem clips_insideOut (Γ : FloatOps) : Clips Γ insideOut ⟨0⟩ := ⟨_, rfl, rfl⟩

/-- The painter panics on that tree. -/
theorem build_insideOut (Γ : FloatOps) (doc : Document) : ¬(build Γ insideOut doc).Dom := by
  rw [build_dom_iff]
  rintro (hwide | hclips)
  · exact absurd hwide (by decide)
  · exact hclips ⟨0⟩ (by decide) (clips_insideOut Γ)

/-- So not every tree gives a balanced list. -/
theorem balances_false : ¬∀ (Γ : FloatOps) (tree : FragmentTree) (doc : Document), Balances Γ tree doc := by
  intro h
  obtain ⟨canvas, dl, -, hb, -⟩ := h .sample insideOut (.new "")
  refine build_insideOut .sample (.new "") ?_
  rw [hb]
  trivial

/-! ## A well-formed tree -/

/-- The recursive painter: a fragment's own items, then its subtree, inside its clip if it has one. -/
def paintForest (Γ : FloatOps) (tree : FragmentTree) (suppressed : Option FragmentId) (viewport : InflatedViewport) :
    Forest FragmentId → List DisplayItem
  | .nil => []
  | .cons id kids rest =>
    (match tree.get id with
      | some fragment =>
        let style := resolveStyle Γ tree fragment.style
        let inside := paintForest Γ tree suppressed viewport kids
        ownItems fragment style (suppressed = some id) viewport ++
          if style.overflow = .hidden then .pushClip (viewport.part fragment.paddingBox) :: (inside ++ [.popClip])
          else inside
      | none => []) ++ paintForest Γ tree suppressed viewport rest

/-- The first node in pre-order that is the fragment of an element with that name. -/
def findInForest (tree : FragmentTree) (doc : Document) (localName : String) (F : Forest FragmentId) : Option FragmentId :=
  F.preorder.find? fun id => (tree.get id).any (isMatch doc localName)

/-- The canvas background: that of `html`, else that of `body`, else none. -/
def canvasOf (Γ : FloatOps) (tree : FragmentTree) (doc : Document) (F : Forest FragmentId) : CanvasBackground :=
  ((propagated Γ tree (findInForest tree doc "html" F)).or
    (propagated Γ tree (findInForest tree doc "body" F))).getD { color := none, suppressedFragment := none }

/-- The recursive painter of a whole tree, with its canvas. -/
def paintTree (Γ : FloatOps) (tree : FragmentTree) (doc : Document) (F : Forest FragmentId) : DisplayList :=
  let canvas := canvasOf Γ tree doc F
  { items := canvasItems tree canvas ++
      paintForest Γ tree canvas.suppressedFragment (.new (viewportBounds tree)) F
    bounds := viewportBounds tree }

/-- The children of a fragment that is there. -/
theorem kids_eq {id : FragmentId} {fragment : Fragment} (h : tree.get id = some fragment) :
    tree.kids id = fragment.children := by
  simp [FragmentTree.kids, h]

/-- With a counter that covers the forest, the walk paints the forest on top of its stack, if it can clamp the clips. -/
theorem walk_forest (suppressed : Option FragmentId) (viewport : InflatedViewport) (F : Forest FragmentId)
    (hF : F.Follows tree.kids) (hr : ∀ id ∈ F.preorder, ∃ fragment, tree.get id = some fragment)
    (hp : viewport.Proper ∨ ∀ id ∈ F.preorder, ¬Clips Γ tree id) (stack : List Frame)
    (remaining : Nat) (items : List DisplayItem) :
    While.Steps (walkStep Γ tree suppressed viewport)
      { stack := F.roots.map .fragment ++ stack, remaining := F.size + remaining, items }
      { stack, remaining, items := items ++ paintForest Γ tree suppressed viewport F } := by
  induction F generalizing stack remaining items with
  | nil =>
    simp only [Forest.roots, Forest.size, paintForest, List.map_nil, List.nil_append, Nat.zero_add, List.append_nil]
    exact While.Steps.refl _
  | cons id K R ihK ihR =>
    obtain ⟨hK, hK', hR'⟩ := hF
    obtain ⟨fragment, hg⟩ := hr id List.mem_cons_self
    have hrK : ∀ x ∈ K.preorder, ∃ fragment, tree.get x = some fragment := fun x hx =>
      hr x (List.mem_cons_of_mem _ (List.mem_append_left _ hx))
    have hrR : ∀ x ∈ R.preorder, ∃ fragment, tree.get x = some fragment := fun x hx =>
      hr x (List.mem_cons_of_mem _ (List.mem_append_right _ hx))
    have hpK : viewport.Proper ∨ ∀ x ∈ K.preorder, ¬Clips Γ tree x := hp.imp_right fun h x hx =>
      h x (List.mem_cons_of_mem _ (List.mem_append_left _ hx))
    have hpR : viewport.Proper ∨ ∀ x ∈ R.preorder, ¬Clips Γ tree x := hp.imp_right fun h x hx =>
      h x (List.mem_cons_of_mem _ (List.mem_append_right _ hx))
    rw [kids_eq hg] at hK
    have hsize : (Forest.cons id K R).size + remaining = K.size + (R.size + remaining) + 1 := by
      simp only [Forest.size]
      omega
    rw [hsize]
    refine While.Steps.head (walkStep_visit hg (hp.imp_right fun h => h id List.mem_cons_self)) ?_
    simp only [visit, ← hK]
    refine (ihK hK' hrK hpK _ _ _).trans ?_
    simp only [clipFrames, clipItems, paintForest, hg]
    by_cases hover : (resolveStyle Γ tree fragment.style).overflow = .hidden
    · simp only [hover, if_true]
      refine While.Steps.head (t := ⟨R.roots.map .fragment ++ stack, R.size + remaining, _⟩) rfl ?_
      refine (ihR hR' hrR hpR _ _ _).trans ?_
      simp only [List.append_assoc, List.cons_append]
      exact While.Steps.refl _
    · simp only [hover, if_false, List.append_nil]
      refine (ihR hR' hrR hpR _ _ _).trans ?_
      simp only [List.append_assoc]
      exact While.Steps.refl _

/-- With a counter that covers the forest, the search finds the first match of the forest on top of its stack. -/
theorem find_forest (doc : Document) (localName : String) (F : Forest FragmentId) (hF : F.Follows tree.kids)
    (hr : ∀ id ∈ F.preorder, ∃ fragment, tree.get id = some fragment) (stack : List FragmentId) (remaining : Nat) :
    While.loop (findStep tree doc localName) (F.roots ++ stack, F.size + remaining)
      = match findInForest tree doc localName F with
        | some id => .some (some id)
        | none => While.loop (findStep tree doc localName) (stack, remaining) := by
  induction F generalizing stack remaining with
  | nil => simp [Forest.roots, Forest.size, findInForest, Forest.preorder]
  | cons id K R ihK ihR =>
    obtain ⟨hK, hK', hR'⟩ := hF
    obtain ⟨fragment, hg⟩ := hr id List.mem_cons_self
    have hrK : ∀ x ∈ K.preorder, ∃ fragment, tree.get x = some fragment := fun x hx =>
      hr x (List.mem_cons_of_mem _ (List.mem_append_left _ hx))
    have hrR : ∀ x ∈ R.preorder, ∃ fragment, tree.get x = some fragment := fun x hx =>
      hr x (List.mem_cons_of_mem _ (List.mem_append_right _ hx))
    rw [kids_eq hg] at hK
    have hsize : (Forest.cons id K R).size + remaining = K.size + (R.size + remaining) + 1 := by
      simp only [Forest.size]
      omega
    rw [hsize]
    cases hm : isMatch doc localName fragment with
    | true =>
      rw [While.loop_inr (r := some id) (by simp [findStep, Forest.roots, hg, hm])]
      simp [findInForest, Forest.preorder, hg, hm]
    | false =>
      rw [While.loop_inl (t := (K.roots ++ (R.roots ++ stack), K.size + (R.size + remaining)))
        (by simp [findStep, Forest.roots, hg, hm, hK])]
      rw [ihK hK' hrK, ihR hR' hrR]
      simp only [findInForest, Forest.preorder, List.find?_cons, hg, Option.any_some, hm, List.find?_append]
      cases List.find? (fun id => (tree.get id).any (isMatch doc localName)) K.preorder <;> rfl

/-- The canvas gets the background of the root, or of the body. -/
theorem canvasBackground_eq {F : Forest FragmentId} (hroots : F.roots = [tree.root]) (hF : F.Follows tree.kids)
    (hr : ∀ id ∈ F.preorder, ∃ fragment, tree.get id = some fragment) (hsize : F.size ≤ tree.len) :
    canvasBackground Γ tree doc = .some (canvasOf Γ tree doc F) := by
  have hfind : ∀ localName, findElementFragment tree doc localName = .some (findInForest tree doc localName F) := by
    intro localName
    have h := find_forest doc localName F hF hr [] (tree.len - F.size)
    rw [hroots, List.append_nil, Nat.add_sub_cancel' hsize] at h
    rw [findElementFragment, h]
    cases findInForest tree doc localName F with
    | some id => rfl
    | none => exact While.loop_inr rfl
  unfold canvasBackground canvasOf
  rw [hfind, hfind]
  cases h : propagated Γ tree (findInForest tree doc "html" F) <;> simp [h]

/-- With a counter that covers the forest at the root, the painter is the recursion over the forest, if it can clamp the
clips. -/
theorem build_eq_of_forest (doc : Document) {F : Forest FragmentId} (hroots : F.roots = [tree.root])
    (hF : F.Follows tree.kids) (hr : ∀ id ∈ F.preorder, ∃ fragment, tree.get id = some fragment) (hsize : F.size ≤ tree.len)
    (hp : Widenable tree.viewport ∨ ∀ id ∈ F.preorder, ¬Clips Γ tree id) :
    build Γ tree doc = .some (paintTree Γ tree doc F) := by
  rw [← proper_iff_widenable] at hp
  have h := walk_forest (Γ := Γ) (canvasOf Γ tree doc F).suppressedFragment (.new (viewportBounds tree)) F hF hr hp []
    (tree.len - F.size) (canvasItems tree (canvasOf Γ tree doc F))
  rw [hroots, List.append_nil, Nat.add_sub_cancel' hsize] at h
  exact build_eq (canvasBackground_eq hroots hF hr hsize) (h.loop_eq.trans (While.loop_inr rfl))

/-- The first fragments below the roots of a forest are those of the forest, in pre-order. -/
theorem firstFragments_forest (F : Forest FragmentId) (hF : F.Follows tree.kids) (n : Nat) (stack : List FragmentId) :
    firstFragments tree (F.size + n) (F.roots ++ stack) = F.preorder ++ firstFragments tree n stack := by
  induction F generalizing n stack with
  | nil => simp [Forest.roots, Forest.size, Forest.preorder]
  | cons id K R ihK ihR =>
    obtain ⟨hK, hK', hR'⟩ := hF
    have hsize : (Forest.cons id K R).size + n = K.size + (R.size + n) + 1 := by
      simp only [Forest.size]
      omega
    rw [hsize, Forest.roots, List.cons_append, firstFragments, ← hK, ihK hK', ihR hR', Forest.preorder]
    simp

/-- The painter is the recursion over the tree, in which every fragment reachable from the root occurs once. -/
def PaintsRecursively (Γ : FloatOps) (tree : FragmentTree) (doc : Document) : Prop :=
  ∃ F : Forest FragmentId, F.roots = [tree.root] ∧ F.Follows tree.kids ∧ F.preorder.Nodup ∧
    (∀ id, id ∈ F.preorder ↔ Relation.ReflTransGen (Child tree.kids) id tree.root) ∧
    build Γ tree doc = .some (paintTree Γ tree doc F)

/-- On a well-formed tree it is, exactly if the viewport can be widened or no fragment reachable from the root clips. -/
theorem paintsRecursively_iff (Γ : FloatOps) (doc : Document) (h : tree.WellFormed) :
    PaintsRecursively Γ tree doc ↔ Widenable tree.viewport ∨
      ∀ id, Relation.ReflTransGen (Child tree.kids) id tree.root → ¬Clips Γ tree id := by
  obtain ⟨F, hroots, hF, hn, hr, hsize⟩ := h.exists_forest
  have hreach := hF.mem_preorder_iff hroots
  constructor
  · rintro ⟨G, -, -, -, -, hb⟩
    have hdom : (build Γ tree doc).Dom := by
      rw [hb]
      trivial
    refine ((build_dom_iff Γ tree doc).1 hdom).imp_right fun hclips id hid => hclips id ?_
    have hfirst := firstFragments_forest F hF (tree.len - F.size) []
    rw [hroots, List.append_nil, Nat.add_sub_cancel' hsize, firstFragments_nil, List.append_nil] at hfirst
    rw [hfirst]
    exact (hreach id).2 hid
  · intro hp
    refine ⟨F, hroots, hF, hn, hreach, build_eq_of_forest doc hroots hF hr hsize (hp.imp_right fun hclips id hid => ?_)⟩
    exact hclips id ((hreach id).1 hid)

/-- Nor is every well-formed tree painted as the recursion over it: not one that is inside out. -/
theorem paintsRecursively_false : ¬∀ (Γ : FloatOps) (tree : FragmentTree) (doc : Document),
    tree.WellFormed → PaintsRecursively Γ tree doc := by
  intro h
  have hkids : ∀ id, insideOut.kids id = [] := by
    rintro ⟨_ | _⟩ <;> rfl
  have hwell : insideOut.WellFormed :=
    { root := ⟨_, rfl⟩
      resolves := fun id child hc => by simp [hkids] at hc
      uniqueParents := ⟨fun c p q hp _ => by simp [hkids] at hp, fun p => by simp [hkids]⟩
      acyclic := fun id hid => by
        obtain ⟨p, -, hp⟩ := Relation.TransGen.tail'_iff.1 hid
        simp [Child, hkids] at hp }
  obtain ⟨F, -, -, -, -, hb⟩ := h .sample insideOut (.new "") hwell
  refine build_insideOut .sample (.new "") ?_
  rw [hb]
  trivial

/-- A small page: `html` with a background, in it a block with a border and `overflow: hidden` that holds a line of text and
a block far below the viewport. -/
def page : FragmentTree where
  fragments :=
    [{ node := none, kind := .text [⟨⟨0⟩, .fromPx 16, ⟨.fromPx 10, .fromPx 20⟩, [⟨36, .zero, .zero, .fromPx 9⟩], .black⟩]
       borderBox := ⟨⟨.fromPx 10, .fromPx 2⟩, .fromPx 9, .fromPx 20⟩
       paddingBox := ⟨⟨.fromPx 10, .fromPx 2⟩, .fromPx 9, .fromPx 20⟩
       contentBox := ⟨⟨.fromPx 10, .fromPx 2⟩, .fromPx 9, .fromPx 20⟩
       style := ⟨0⟩, children := [] },
     { node := none, kind := .line
       borderBox := ⟨⟨.fromPx 2, .fromPx 2⟩, .fromPx 796, .fromPx 20⟩
       paddingBox := ⟨⟨.fromPx 2, .fromPx 2⟩, .fromPx 796, .fromPx 20⟩
       contentBox := ⟨⟨.fromPx 2, .fromPx 2⟩, .fromPx 796, .fromPx 20⟩
       style := ⟨0⟩, children := [⟨0⟩] },
     { node := none, kind := .block
       borderBox := ⟨⟨.fromPx 2, .fromPx 9000⟩, .fromPx 796, .fromPx 20⟩
       paddingBox := ⟨⟨.fromPx 2, .fromPx 9000⟩, .fromPx 796, .fromPx 20⟩
       contentBox := ⟨⟨.fromPx 2, .fromPx 9000⟩, .fromPx 796, .fromPx 20⟩
       style := ⟨1⟩, children := [] },
     { node := none, kind := .block
       borderBox := ⟨⟨.zero, .zero⟩, .fromPx 800, .fromPx 100⟩
       paddingBox := ⟨⟨.fromPx 2, .fromPx 2⟩, .fromPx 796, .fromPx 96⟩
       contentBox := ⟨⟨.fromPx 2, .fromPx 2⟩, .fromPx 796, .fromPx 96⟩
       style := ⟨2⟩, children := [⟨1⟩, ⟨2⟩] },
     { node := some (.fromIndex 1), kind := .block
       borderBox := ⟨⟨.zero, .zero⟩, .fromPx 800, .fromPx 100⟩
       paddingBox := ⟨⟨.zero, .zero⟩, .fromPx 800, .fromPx 100⟩
       contentBox := ⟨⟨.zero, .zero⟩, .fromPx 800, .fromPx 100⟩
       style := ⟨1⟩, children := [⟨3⟩] }]
  styles :=
    [.initial .sample, { LayoutStyle.initial .sample with background := ⟨255, 255, 255, 255⟩ },
     { LayoutStyle.initial .sample with
       overflow := .hidden, borderWidth := .uniform (.fromPx 2), borderSolid := .uniform true }]
  root := ⟨4⟩
  viewport := ⟨.fromPx 800, .fromPx 600⟩

/-- The document of that page. -/
def pageDocument : Document :=
  ((Document.new "").create (.element ⟨⟨none, "", "html"⟩, [], none⟩)).2.linkLast (.fromIndex 0) (.fromIndex 1)

/-- The forest of that page. -/
def pageForest : Forest FragmentId :=
  .cons ⟨4⟩ (.cons ⟨3⟩ (.cons ⟨1⟩ (.cons ⟨0⟩ .nil .nil) (.cons ⟨2⟩ .nil .nil)) .nil) .nil

/-- The fragments of the page are its children. -/
theorem pageForest_follows : pageForest.Follows page.kids :=
  ⟨rfl, ⟨rfl, ⟨rfl, ⟨rfl, trivial, trivial⟩, rfl, trivial, trivial⟩, trivial⟩, trivial⟩

/-- The page is a tree. -/
theorem page_wellFormed : page.WellFormed := by
  have hall : ∀ p, page.kids p ≠ [] → p ∈ pageForest.preorder := by
    rintro ⟨_ | _ | _ | _ | _ | n⟩
    all_goals simp [page, FragmentTree.kids, FragmentTree.get, pageForest, Forest.preorder]
  have below : ∀ {c p}, Child page.kids c p → c.index < p.index := by
    rintro c ⟨_ | _ | _ | _ | _ | n⟩ hc
    all_goals simp [Child, page, FragmentTree.kids, FragmentTree.get] at hc
    · simp [hc]
    · rcases hc with rfl | rfl <;> decide
    · simp [hc]
  refine ⟨⟨_, rfl⟩, ?_, pageForest_follows.uniqueParents (by decide) hall, ?_⟩
  · rintro ⟨_ | _ | _ | _ | _ | n⟩ child hc
    all_goals simp [page, FragmentTree.kids, FragmentTree.get] at hc
    · exact ⟨_, by rw [hc]; rfl⟩
    · rcases hc with rfl | rfl <;> exact ⟨_, rfl⟩
    · exact ⟨_, by rw [hc]; rfl⟩
  · intro id hid
    have hlt : ∀ {x y}, Relation.TransGen (Child page.kids) x y → x.index < y.index := by
      intro x y h
      induction h with
      | single h => exact below h
      | tail _ h ih => exact ih.trans (below h)
    exact absurd (hlt hid) (Nat.lt_irrefl _)

/-- That page is painted as the recursion over it: its canvas, the border of the block, and the text inside its clip; the block
out of sight is culled. -/
theorem paintsRecursively_page : page.WellFormed ∧ PaintsRecursively .sample page pageDocument ∧
    (paintTree .sample page pageDocument pageForest).items =
      [.rect ⟨.zero, .fromPx 800, .fromPx 600⟩ ⟨255, 255, 255, 255⟩,
       .border ⟨⟨.zero, .zero⟩, .fromPx 800, .fromPx 100⟩ (.uniform (.fromPx 2)) (.uniform .black),
       .pushClip ⟨⟨.fromPx 2, .fromPx 2⟩, .fromPx 796, .fromPx 96⟩,
       .text ⟨⟨0⟩, .fromPx 16, ⟨.fromPx 10, .fromPx 20⟩, [⟨36, .zero, .zero, .fromPx 9⟩], .black⟩,
       .popClip] :=
  ⟨page_wellFormed, (paintsRecursively_iff .sample pageDocument page_wellFormed).2 (Or.inl (by decide)), by decide⟩

/-! ## Culling -/

/-- What a fragment would paint itself if nothing were culled. -/
def candidateItems (fragment : Fragment) (style : LayoutStyle) (suppressBackground : Bool) : List DisplayItem :=
  match fragment.kind with
  | .block => backgroundItems fragment style suppressBackground ++ borderItems fragment style
  | .anonymousBlock | .line => []
  | .text runs => (runs.filter fun run => !run.glyphs.isEmpty).map .text

/-- Some unit of area of the rect lies in the viewport. -/
def HasAreaInside (viewport : Size) (r : Rect) : Prop :=
  ∃ x y : Int, (r.origin.x.units ≤ x ∧ x < r.origin.x.units + r.size.w.units) ∧
    (r.origin.y.units ≤ y ∧ y < r.origin.y.units + r.size.h.units) ∧
    (0 ≤ x ∧ x < viewport.w.units) ∧ (0 ≤ y ∧ y < viewport.h.units)

/-- Some glyph of the run is positioned in the viewport. -/
def HasGlyphInside (viewport : Size) (run : GlyphRun) : Prop :=
  ∃ glyph ∈ run.glyphs,
    (0 ≤ run.origin.x.units + glyph.x.units ∧ run.origin.x.units + glyph.x.units ≤ viewport.w.units) ∧
    (0 ≤ run.origin.y.units + glyph.y.units ∧ run.origin.y.units + glyph.y.units ≤ viewport.h.units)

/-- Whether an item paints something in the viewport. -/
def PaintsInside (viewport : Size) : DisplayItem → Prop
  | .rect rect _ | .border rect _ _ => HasAreaInside viewport rect
  | .text run => HasGlyphInside viewport run
  | .pushClip _ | .popClip => False

/-- The walk of the painter visits a fragment. -/
def Painted (Γ : FloatOps) (tree : FragmentTree) (canvas : CanvasBackground) (id : FragmentId) (fragment : Fragment) :
    Prop :=
  ∃ stack remaining items, tree.get id = some fragment ∧
    While.Steps (walkStep Γ tree canvas.suppressedFragment (.new (viewportBounds tree)))
      (walkStart tree (canvasItems tree canvas)) { stack := .fragment id :: stack, remaining := remaining + 1, items }

/-- Whatever a visited fragment would paint and the painter leaves out paints nothing in the viewport. -/
def CullsOnlyInvisible (Γ : FloatOps) (tree : FragmentTree) (doc : Document) : Prop :=
  ∀ canvas, canvasBackground Γ tree doc = .some canvas → ∀ id fragment, Painted Γ tree canvas id fragment →
    ∀ item ∈ candidateItems fragment (resolveStyle Γ tree fragment.style) (canvas.suppressedFragment = some id),
      item ∉ ownItems fragment (resolveStyle Γ tree fragment.style) (canvas.suppressedFragment = some id)
        (.new (viewportBounds tree)) →
      ¬PaintsInside tree.viewport item

/-- Neither the rects nor the glyph positions of a tree overflow. -/
def NoOverflow (tree : FragmentTree) : Prop :=
  ∀ fragment ∈ tree.fragments,
    (∀ r ∈ [fragment.borderBox, fragment.paddingBox, fragment.contentBox],
      r.origin.x.AddFits r.size.w ∧ r.origin.y.AddFits r.size.h) ∧
    ∀ runs, fragment.kind = .text runs → ∀ run ∈ runs, ∀ glyph ∈ run.glyphs,
      run.origin.x.AddFits glyph.x ∧ run.origin.y.AddFits glyph.y

/-- One axis: a span that does not overlap the widened viewport has no unit in the viewport. -/
theorem axis_disjoint {lo size v : Au} {x : Int}
    (h : axisOverlaps lo (lo.saturatingAdd size) (Au.zero.saturatingSub (.fromPx offscreenMarginPx))
      ((Au.zero.saturatingAdd v).saturatingAdd (.fromPx offscreenMarginPx)) = false)
    (h1 : lo.units ≤ x) (h2 : x < lo.units + size.units) (h3 : 0 ≤ x) (h4 : x < v.units) : False := by
  have hlo := lo.isI32
  have hv := v.isI32
  unfold axisOverlaps at h
  split at h
  · rename_i heq
    have heq := congrArg Au.units heq
    simp only [decide_eq_false_iff_not, ge_iff_le, Au.le_iff, Au.units_saturatingAdd, Au.units_saturatingSub,
      Au.units_zero, Au.fromPx, Au.units_saturate, offscreenMarginPx] at h heq
    omega
  · simp only [decide_eq_false_iff_not, gt_iff_lt, Au.lt_iff, Au.units_saturatingAdd, Au.units_saturatingSub,
      Au.units_zero, Au.fromPx, Au.units_saturate, offscreenMarginPx] at h
    omega

/-- A culled rect has no area in the viewport. -/
theorem not_hasAreaInside {r : Rect} (h : InflatedViewport.intersectsRect (.new (viewportBounds tree)) r = false) :
    ¬HasAreaInside tree.viewport r := by
  rintro ⟨x, y, ⟨hx1, hx2⟩, ⟨hy1, hy2⟩, ⟨hx3, hx4⟩, ⟨hy3, hy4⟩⟩
  unfold InflatedViewport.intersectsRect at h
  rcases Bool.and_eq_false_iff.1 h with h | h
  · exact axis_disjoint h hx1 hx2 hx3 hx4
  · exact axis_disjoint h hy1 hy2 hy3 hy4

/-- A block paints inside the viewport where its border box does. -/
theorem paintsInside_of_block {fragment : Fragment} {style : LayoutStyle} {suppress : Bool} {item : DisplayItem}
    (h : item ∈ backgroundItems fragment style suppress ++ borderItems fragment style) (viewport : Size) :
    PaintsInside viewport item ↔ HasAreaInside viewport fragment.borderBox := by
  unfold backgroundItems borderItems at h
  rcases List.mem_append.1 h with h | h
  · split at h <;> simp at h
    subst h
    rfl
  · split at h <;> simp at h
    subst h
    rfl

/-- The runs a fragment paints. -/
def runsOf (fragment : Fragment) : List GlyphRun :=
  match fragment.kind with
  | .text runs => runs
  | .block | .anonymousBlock | .line => []

/-- What a visited fragment would paint in the viewport is left out only if it is a run that starts outside the region. -/
theorem culls_of_runs (h : ∀ canvas, canvasBackground Γ tree doc = .some canvas → ∀ id fragment, Painted Γ tree canvas id fragment →
    ∀ run ∈ runsOf fragment, HasGlyphInside tree.viewport run →
      InflatedViewport.containsPoint (.new (viewportBounds tree)) run.origin = true) :
    CullsOnlyInvisible Γ tree doc := by
  intro canvas hc id fragment hp item hitem hown hin
  unfold candidateItems at hitem
  unfold ownItems at hown
  cases hk : fragment.kind with
  | block =>
    simp only [hk] at hitem hown
    cases hcull : InflatedViewport.intersectsRect (.new (viewportBounds tree)) fragment.borderBox with
    | true => exact hown (by simpa only [hcull, if_true] using hitem)
    | false => exact not_hasAreaInside hcull ((paintsInside_of_block hitem _).1 hin)
  | anonymousBlock => simp [hk] at hitem
  | line => simp [hk] at hitem
  | text runs =>
    simp only [hk, List.mem_map, List.mem_filter] at hitem hown
    obtain ⟨run, ⟨hrun, hne⟩, rfl⟩ := hitem
    refine hown ⟨run, ⟨hrun, ?_⟩, rfl⟩
    rw [hne, Bool.true_and]
    exact h canvas hc id fragment hp run (by simpa [runsOf, hk] using hrun) hin

/-- No further from the origin of its run than the offscreen margin of 4096 pixels, in either direction. -/
def Near (glyph : Glyph) : Prop :=
  (-(4096 * 60) ≤ glyph.x.units ∧ glyph.x.units ≤ 4096 * 60) ∧ -(4096 * 60) ≤ glyph.y.units ∧ glyph.y.units ≤ 4096 * 60

instance (glyph : Glyph) : Decidable (Near glyph) := inferInstanceAs (Decidable (_ ∧ _))

/-- A run that has a glyph in the viewport and only glyphs near its origin starts inside the region. -/
theorem containsPoint_of_near {run : GlyphRun} (hnear : ∀ glyph ∈ run.glyphs, Near glyph)
    (hin : HasGlyphInside tree.viewport run) :
    InflatedViewport.containsPoint (.new (viewportBounds tree)) run.origin = true := by
  obtain ⟨glyph, hglyph, ⟨hx0, hx⟩, hy0, hy⟩ := hin
  obtain ⟨⟨hnx0, hnx⟩, hny0, hny⟩ := hnear glyph hglyph
  have margin : (Au.fromPx offscreenMarginPx).units = 245760 := by decide
  have hox := run.origin.x.isI32
  have hoy := run.origin.y.isI32
  simp only [InflatedViewport.containsPoint, InflatedViewport.new, viewportBounds, Rect.right, Rect.bottom, Point.zero,
    decide_eq_true_eq, ge_iff_le, Au.le_iff, Au.units_saturatingAdd, Au.units_saturatingSub, Au.units_zero, margin]
  omega

/-- A tree that is one run of one glyph. -/
def oneGlyph (glyph : Glyph) (origin : Point) (viewport : Size) : FragmentTree where
  fragments :=
    [{ node := none, kind := .text [⟨⟨0⟩, .fromPx 16, origin, [glyph], .black⟩], borderBox := .zero, paddingBox := .zero
       contentBox := .zero, style := ⟨0⟩, children := [] }]
  styles := []
  root := ⟨0⟩
  viewport

/-- A glyph whose position fits overflows nothing. -/
theorem noOverflow_oneGlyph {glyph : Glyph} {origin : Point} {viewport : Size} (hx : origin.x.AddFits glyph.x)
    (hy : origin.y.AddFits glyph.y) : NoOverflow (oneGlyph glyph origin viewport) := by
  intro fragment hf
  obtain rfl := List.mem_singleton.1 hf
  refine ⟨by simp [Rect.zero, Point.zero, Au.AddFits, Au.units_zero], ?_⟩
  intro runs hk run hrun g hg
  cases hk
  obtain rfl := List.mem_singleton.1 hrun
  obtain rfl := List.mem_singleton.1 hg
  exact ⟨hx, hy⟩

/-- A run that starts outside the region and has a glyph in the viewport is left out. -/
theorem not_culls_oneGlyph {glyph : Glyph} {origin : Point} {viewport : Size}
    (hout : InflatedViewport.containsPoint (.new ⟨.zero, viewport⟩) origin = false)
    (hin : HasGlyphInside viewport ⟨⟨0⟩, .fromPx 16, origin, [glyph], .black⟩) :
    ¬CullsOnlyInvisible Γ (oneGlyph glyph origin viewport) doc := by
  intro h
  obtain ⟨canvas, hc⟩ := canvasBackground_terminates Γ (oneGlyph glyph origin viewport) doc
  have hp : Painted Γ (oneGlyph glyph origin viewport) canvas ⟨0⟩ _ := ⟨[], 0, _, rfl, While.Steps.refl _⟩
  refine h canvas hc _ _ hp (.text ⟨⟨0⟩, .fromPx 16, origin, [glyph], .black⟩) List.mem_cons_self ?_ hin
  simp [ownItems, viewportBounds, oneGlyph, hout]

/-- One axis of a viewport: an offset leads into it from some origin, and if it is beyond the margin from one outside the
widened viewport. -/
theorem exists_origin (offset : Au) (hmin : offset.units ≠ -2147483648) {extent : Int} (h0 : 0 ≤ extent) (h : extent ≤ 48000) :
    ∃ origin : Au, origin.AddFits offset ∧ (0 ≤ origin.units + offset.units ∧ origin.units + offset.units ≤ extent) ∧
      (offset.units < -(4096 * 60) ∨ 4096 * 60 < offset.units →
        origin.units < -245760 ∨ extent + 245760 < origin.units) := by
  have hoffset := offset.isI32
  by_cases hneg : offset.units < 0
  · refine ⟨.saturate (extent - offset.units), ?_⟩
    rw [Au.AddFits, Au.units_saturate]
    omega
  · refine ⟨.saturate (-offset.units), ?_⟩
    rw [Au.AddFits, Au.units_saturate]
    omega

/-- A glyph beyond the margin is lost from some origin: there its run is left out, and the glyph is in the viewport. -/
theorem exists_lost {glyph : Glyph} (hfar : ¬Near glyph) (hx : glyph.x.units ≠ -2147483648) (hy : glyph.y.units ≠ -2147483648) :
    ∃ origin viewport, NoOverflow (oneGlyph glyph origin viewport) ∧
      ¬CullsOnlyInvisible Γ (oneGlyph glyph origin viewport) doc := by
  obtain ⟨x, hxfits, hxin, hxout⟩ := exists_origin glyph.x hx (show (0 : Int) ≤ 48000 by decide) (by decide)
  obtain ⟨y, hyfits, hyin, hyout⟩ := exists_origin glyph.y hy (show (0 : Int) ≤ 36000 by decide) (by decide)
  refine ⟨⟨x, y⟩, ⟨.fromPx 800, .fromPx 600⟩, noOverflow_oneGlyph hxfits hyfits,
    not_culls_oneGlyph ?_ ⟨glyph, List.mem_singleton_self _, hxin, hyin⟩⟩
  have hregion : ∀ point : Point, InflatedViewport.containsPoint (.new ⟨.zero, .fromPx 800, .fromPx 600⟩) point = true ↔
      (-245760 ≤ point.x.units ∧ point.x.units ≤ 48000 + 245760) ∧ -245760 ≤ point.y.units ∧ point.y.units ≤ 36000 + 245760 := by
    intro point
    simp only [InflatedViewport.containsPoint, decide_eq_true_eq, ge_iff_le, Au.le_iff]
    exact and_assoc.symm
  rw [← Bool.not_eq_true, hregion]
  unfold Near at hfar
  dsimp only
  omega

/-- The painter culls only what is invisible, if every run it walks over that starts outside the widened viewport has its glyphs
near its origin. And no glyph beyond that distance is safe: there is a place for it, without an overflow, where it is in the
viewport and yet culled. Only an offset of the least app unit leads into no viewport. -/
theorem culls_of_near (Γ : FloatOps) (doc : Document) :
    (∀ tree, (∀ id ∈ firstFragments tree tree.len [tree.root], ∀ fragment, tree.get id = some fragment →
        ∀ run ∈ runsOf fragment, InflatedViewport.containsPoint (.new (viewportBounds tree)) run.origin = false →
          ∀ glyph ∈ run.glyphs, Near glyph) →
      CullsOnlyInvisible Γ tree doc) ∧
    ∀ glyph, ¬Near glyph → glyph.x.units ≠ -2147483648 → glyph.y.units ≠ -2147483648 →
      ∃ origin viewport, NoOverflow (oneGlyph glyph origin viewport) ∧
        ¬CullsOnlyInvisible Γ (oneGlyph glyph origin viewport) doc := by
  refine ⟨fun tree hnear => culls_of_runs ?_, fun glyph hfar hx hy => exists_lost hfar hx hy⟩
  intro canvas hc id fragment hp run hrun hin
  by_contra hout
  obtain ⟨stack, remaining, items, hg, hsteps⟩ := hp
  have hfirst : id ∈ firstFragments tree tree.len [tree.root] :=
    steps_ahead hsteps (by simp [ahead, Frame.fragment?, firstFragments])
  exact hout (containsPoint_of_near (hnear id hfirst fragment hg run hrun (Bool.not_eq_true _ ▸ hout)) hin)

/-- A line of text that starts 5000 pixels left of a viewport 800 pixels wide and reaches into it. -/
def longRun : GlyphRun where
  font := ⟨0⟩
  size := .fromPx 16
  origin := ⟨.fromPx (-5000), .fromPx 20⟩
  glyphs := [⟨1, .fromPx 0, .zero, .fromPx 5100⟩, ⟨1, .fromPx 5100, .zero, .fromPx 10⟩]
  color := .black

/-- A line that starts far to the left of the viewport and ends in it. -/
def longLine : FragmentTree where
  fragments :=
    [{ node := none, kind := .text [longRun]
       borderBox := ⟨⟨.fromPx (-5000), .zero⟩, ⟨.fromPx 5110, .fromPx 20⟩⟩
       paddingBox := ⟨⟨.fromPx (-5000), .zero⟩, ⟨.fromPx 5110, .fromPx 20⟩⟩
       contentBox := ⟨⟨.fromPx (-5000), .zero⟩, ⟨.fromPx 5110, .fromPx 20⟩⟩
       style := ⟨0⟩
       children := [] }]
  styles := []
  root := ⟨0⟩
  viewport := ⟨.fromPx 800, .fromPx 600⟩

/-- Of the same line cut to its first glyph nothing is lost. -/
theorem culls_of_near_cutLine : CullsOnlyInvisible .sample
    { longLine with fragments := longLine.fragments.map fun f =>
        { f with kind := .text [{ longRun with glyphs := [⟨1, .fromPx 0, .zero, .fromPx 10⟩] }] } } (.new "") := by
  refine (culls_of_near .sample (.new "")).1 _ ?_
  decide

/-- The painter drops text that reaches into the viewport from a start too far left of it. -/
theorem culls_false : ¬∀ (Γ : FloatOps) (tree : FragmentTree) (doc : Document),
    NoOverflow tree → CullsOnlyInvisible Γ tree doc := by
  intro h
  have hfits : NoOverflow longLine := by
    intro fragment hf
    obtain rfl := List.mem_singleton.1 hf
    refine ⟨by decide, ?_⟩
    intro runs hk
    cases hk
    decide
  obtain ⟨canvas, hc⟩ := canvasBackground_terminates .sample longLine (.new "")
  have hp : Painted .sample longLine canvas ⟨0⟩ _ := ⟨[], 0, _, rfl, While.Steps.refl _⟩
  have hout : InflatedViewport.containsPoint (.new (viewportBounds longLine)) longRun.origin = false := by decide
  refine h _ _ _ hfits canvas hc _ _ hp (.text longRun) List.mem_cons_self ?_
    ⟨⟨1, .fromPx 5100, .zero, .fromPx 10⟩, by decide, by decide⟩
  simp [ownItems, hout]

end Paint

end ChromeLight
