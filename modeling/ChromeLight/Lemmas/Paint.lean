import ChromeLight.Build
import ChromeLight.Lib.Brackets
import ChromeLight.Lib.Forest
import Mathlib.Data.Prod.Lex

/-!
# One iteration of the painter's walk

What the walk does in one iteration (`walkStep_inl`): close a clip, skip an id that does not resolve, or visit a fragment.
A visit appends the fragment's own items (`ownItems`) and, where the fragment clips, an opening whose closing goes on the
stack under the children. From this come the facts about the whole walk: it ends, it panics exactly if it comes to a clip in
a region that is inside out (`walk_panics_iff`), it pops a bounded number of fragments, and on a tree it emits what the
recursion over the tree emits.
-/

namespace ChromeLight

/-- The value of the range from `lo` to `hi` nearest to a value; `lo` if the range is empty. -/
def Au.within (a lo hi : Au) : Au := Max.max lo (Min.min a hi)

/-- The units of a length that is brought between two others. -/
theorem Au.units_within (a lo hi : Au) : (a.within lo hi).units = Max.max lo.units (Min.min a.units hi.units) := by
  rw [within, units_max, units_min]

/-- `Ord::clamp` is that value, where it has one. -/
theorem Au.clamp_eq (a lo hi : Au) : a.clamp lo hi = if lo ≤ hi then some (a.within lo hi) else none := by
  unfold clamp
  split
  · rename_i hle
    rw [Au.le_iff] at hle
    rw [Option.some.injEq, Au.ext_iff_units, units_within]
    split
    · rename_i hlo
      rw [Au.lt_iff] at hlo
      omega
    · rename_i hlo
      rw [Au.lt_iff] at hlo
      split
      · rename_i hhi
        rw [Au.lt_iff] at hhi
        omega
      · rename_i hhi
        rw [Au.lt_iff] at hhi
        omega
  · rfl

namespace InflatedViewport

/-- A region that is not inside out. -/
def Proper (v : InflatedViewport) : Prop := v.min.x ≤ v.max.x ∧ v.min.y ≤ v.max.y

instance (v : InflatedViewport) : Decidable v.Proper := inferInstanceAs (Decidable (_ ∧ _))

/-- The part of a rect inside a region, without a size at the region's edge if there is none. -/
def part (v : InflatedViewport) (rect : Rect) : Rect :=
  let left := rect.origin.x.within v.min.x v.max.x
  let top := rect.origin.y.within v.min.y v.max.y
  let right := Max.max (rect.right.within v.min.x v.max.x) left
  let bottom := Max.max (rect.bottom.within v.min.y v.max.y) top
  { origin := { x := left, y := top }, size := { w := right.saturatingSub left, h := bottom.saturatingSub top } }

/-- Clamping a rect gives its part, and panics on a region that is inside out. -/
theorem clamp_eq (v : InflatedViewport) (rect : Rect) : v.clamp rect = if v.Proper then some (v.part rect) else none := by
  unfold clamp
  simp only [Au.clamp_eq]
  by_cases hx : v.min.x ≤ v.max.x
  · by_cases hy : v.min.y ≤ v.max.y
    · rw [if_pos (show v.Proper from ⟨hx, hy⟩), if_pos hx, if_pos hx, if_pos hy, if_pos hy]
      rfl
    · rw [if_neg (show ¬v.Proper from fun h => hy h.2), if_pos hx, if_neg hy]
      rfl
  · rw [if_neg (show ¬v.Proper from fun h => hx h.1), if_neg hx]
    rfl

end InflatedViewport

namespace Paint

/-! ## The items of one fragment -/

/-- The background of a block, if it paints one. -/
def backgroundItems (fragment : Fragment) (style : LayoutStyle) (suppressBackground : Bool) : List DisplayItem :=
  if !suppressBackground ∧ style.background.a > 0 ∧ !fragment.borderBox.isEmpty then
    [.rect fragment.borderBox style.background]
  else []

/-- The border of a block, if it paints one. -/
def borderItems (fragment : Fragment) (style : LayoutStyle) : List DisplayItem :=
  match solidBorderWidths style with
  | some widths => [.border fragment.borderBox widths style.borderColor]
  | none => []

/-- What a fragment paints itself, its culled items left out. -/
def ownItems (fragment : Fragment) (style : LayoutStyle) (suppressBackground : Bool) (viewport : InflatedViewport) :
    List DisplayItem :=
  match fragment.kind with
  | .block =>
    if viewport.intersectsRect fragment.borderBox then
      backgroundItems fragment style suppressBackground ++ borderItems fragment style
    else []
  | .anonymousBlock | .line => []
  | .text runs => (runs.filter fun run => !run.glyphs.isEmpty && viewport.containsPoint run.origin).map .text

/-- The clip a fragment opens, if it does. -/
def clipItems (fragment : Fragment) (style : LayoutStyle) (viewport : InflatedViewport) : List DisplayItem :=
  if style.overflow = .hidden then [.pushClip (viewport.part fragment.paddingBox)] else []

/-- The closing that waits on the stack for a clip. -/
def clipFrames (style : LayoutStyle) : List Frame := if style.overflow = .hidden then [.popClip] else []

/-- Painting a fragment appends its own items. -/
theorem paintFragment_eq (fragment : Fragment) (style : LayoutStyle) (suppressBackground : Bool)
    (viewport : InflatedViewport) (items : List DisplayItem) :
    paintFragment fragment style suppressBackground viewport items
      = items ++ ownItems fragment style suppressBackground viewport := by
  unfold paintFragment ownItems
  cases fragment.kind with
  | block =>
    cases viewport.intersectsRect fragment.borderBox with
    | false => simp
    | true =>
      simp only [Bool.not_true, Bool.false_eq_true, if_false, if_true, backgroundItems, borderItems]
      cases solidBorderWidths style with
      | none => simp only; split <;> simp
      | some widths => simp only; split <;> simp
  | anonymousBlock => simp
  | line => simp
  | text runs =>
    simp only
    induction runs generalizing items with
    | nil => simp
    | cons run runs ih =>
      rw [List.foldl_cons, ih, List.filter_cons]
      cases run.glyphs.isEmpty <;> cases viewport.containsPoint run.origin <;> simp

/-- Draining closes the clips that are open. -/
theorem drainPendingPopClips_eq (stack : List Frame) (items : List DisplayItem) :
    drainPendingPopClips stack items = items ++ List.replicate (stack.count .popClip) .popClip := by
  unfold drainPendingPopClips
  induction stack generalizing items with
  | nil => simp
  | cons frame stack ih =>
    rw [List.foldl_cons, ih]
    cases frame with
    | fragment id => simp
    | popClip => simp [List.replicate_succ]

/-! ## Iterations -/

section

variable {Γ : FloatOps} {tree : FragmentTree} {suppressed : Option FragmentId} {viewport : InflatedViewport}
  {s s' : WalkState} {items : List DisplayItem}

/-- The state after a fragment is visited. -/
def visit (Γ : FloatOps) (tree : FragmentTree) (suppressed : Option FragmentId) (viewport : InflatedViewport)
    (id : FragmentId) (fragment : Fragment) (stack : List Frame) (remaining : Nat) (items : List DisplayItem) :
    WalkState :=
  let style := resolveStyle Γ tree fragment.style
  { stack := fragment.children.map .fragment ++ (clipFrames style ++ stack)
    remaining
    items := items ++ ownItems fragment style (suppressed = some id) viewport ++ clipItems fragment style viewport }

/-- A fragment that clips: its style has `overflow: hidden`. -/
def Clips (Γ : FloatOps) (tree : FragmentTree) (id : FragmentId) : Prop :=
  ∃ fragment, tree.get id = some fragment ∧ (resolveStyle Γ tree fragment.style).overflow = .hidden

/-- The walk visits a fragment, unless it would have to clamp a clip to a region that is inside out. -/
theorem walkStep_fragment {id : FragmentId} {stack : List Frame} {remaining : Nat} {fragment : Fragment}
    (h : tree.get id = some fragment) :
    walkStep Γ tree suppressed viewport { stack := .fragment id :: stack, remaining := remaining + 1, items }
      = if (resolveStyle Γ tree fragment.style).overflow = .hidden ∧ ¬viewport.Proper then .inr none
        else .inl (visit Γ tree suppressed viewport id fragment stack remaining items) := by
  simp only [walkStep, h, paintFragment_eq, visit, clipFrames, clipItems, Nat.add_one_ne_zero, if_false,
    Nat.add_sub_cancel, InflatedViewport.clamp_eq]
  by_cases hover : (resolveStyle Γ tree fragment.style).overflow = .hidden
  · by_cases hproper : viewport.Proper
    · simp [hover, hproper]
    · simp [hover, hproper]
  · simp [hover]

/-- A fragment that is there is visited, unless its clip panics. -/
theorem walkStep_visit {id : FragmentId} {stack : List Frame} {remaining : Nat} {fragment : Fragment}
    (h : tree.get id = some fragment) (hp : viewport.Proper ∨ ¬Clips Γ tree id) :
    walkStep Γ tree suppressed viewport { stack := .fragment id :: stack, remaining := remaining + 1, items }
      = .inl (visit Γ tree suppressed viewport id fragment stack remaining items) := by
  rw [walkStep_fragment h, if_neg]
  rintro ⟨hover, hnot⟩
  exact hp.elim hnot fun hclips => hclips ⟨fragment, h, hover⟩

/-- What an iteration that goes on does. -/
theorem walkStep_inl (h : walkStep Γ tree suppressed viewport s = .inl s') :
    (∃ stack, s.stack = .popClip :: stack ∧ s' = { s with stack, items := s.items ++ [.popClip] }) ∨
    (∃ id stack remaining, s.stack = .fragment id :: stack ∧ s.remaining = remaining + 1 ∧ tree.get id = none ∧
      s' = { s with stack, remaining }) ∨
    (∃ id stack remaining fragment, s.stack = .fragment id :: stack ∧ s.remaining = remaining + 1 ∧
      tree.get id = some fragment ∧ ((resolveStyle Γ tree fragment.style).overflow = .hidden → viewport.Proper) ∧
      s' = visit Γ tree suppressed viewport id fragment stack remaining s.items) := by
  obtain ⟨stack, remaining, items⟩ := s
  match stack with
  | [] => simp [walkStep] at h
  | .popClip :: stack =>
    simp only [walkStep, Sum.inl.injEq] at h
    exact Or.inl ⟨stack, rfl, h.symm⟩
  | .fragment id :: stack =>
    cases remaining with
    | zero => simp [walkStep] at h
    | succ remaining =>
      cases hg : tree.get id with
      | none =>
        simp only [walkStep, hg, Nat.add_one_ne_zero, if_false, Nat.add_sub_cancel, Sum.inl.injEq] at h
        exact Or.inr (Or.inl ⟨id, stack, remaining, rfl, rfl, hg, h.symm⟩)
      | some fragment =>
        rw [walkStep_fragment hg] at h
        split at h
        · cases h
        · rename_i hclip
          exact Or.inr (Or.inr ⟨id, stack, remaining, fragment, rfl, rfl, hg, fun hover => by_contra fun hp => hclip ⟨hover, hp⟩,
            (Sum.inl.inj h).symm⟩)

/-- When an iteration ends the walk: the stack is empty, or the guard fired and the open clips are closed, or a clip is clamped
to a region that is inside out. -/
theorem walkStep_inr {result : Option (List DisplayItem)} (h : walkStep Γ tree suppressed viewport s = .inr result) :
    (s.stack = [] ∧ result = some s.items) ∨
    (∃ id stack, s.stack = .fragment id :: stack ∧ s.remaining = 0 ∧
      result = some (s.items ++ List.replicate (stack.count .popClip) .popClip)) ∨
    ∃ id stack remaining fragment, s.stack = .fragment id :: stack ∧ s.remaining = remaining + 1 ∧ tree.get id = some fragment ∧
      (resolveStyle Γ tree fragment.style).overflow = .hidden ∧ ¬viewport.Proper ∧ result = none := by
  obtain ⟨stack, remaining, items'⟩ := s
  match stack with
  | [] =>
    simp only [walkStep, Sum.inr.injEq] at h
    exact Or.inl ⟨rfl, h.symm⟩
  | .popClip :: stack => simp [walkStep] at h
  | .fragment id :: stack =>
    cases remaining with
    | zero =>
      simp only [walkStep, if_true, Sum.inr.injEq, drainPendingPopClips_eq] at h
      exact Or.inr (Or.inl ⟨id, stack, rfl, rfl, h.symm⟩)
    | succ remaining =>
      cases hg : tree.get id with
      | none => simp [walkStep, hg] at h
      | some fragment =>
        rw [walkStep_fragment hg] at h
        split at h
        · rename_i hclip
          exact Or.inr (Or.inr ⟨id, stack, remaining, fragment, rfl, rfl, hg, hclip.1, hclip.2, (Sum.inr.inj h).symm⟩)
        · cases h

/-- Every iteration that goes on uses up the counter, or else the stack. -/
theorem walkStep_decreases (h : walkStep Γ tree suppressed viewport s = .inl s') :
    Prod.Lex (· < ·) (· < ·) (s'.remaining, s'.stack.length) (s.remaining, s.stack.length) := by
  rcases walkStep_inl h with ⟨stack, hs, rfl⟩ | ⟨id, stack, remaining, hs, hr, -, rfl⟩ |
    ⟨id, stack, remaining, fragment, hs, hr, -, -, rfl⟩
  · exact Prod.Lex.right _ (by simp [hs])
  · exact Prod.Lex.left _ _ (by simp [hr])
  · exact Prod.Lex.left _ _ (by simp [hr, visit])

/-- The walk ends, whatever the tree is, with its items or with a panic. -/
theorem walk_terminates (Γ : FloatOps) (tree : FragmentTree) (suppressed : Option FragmentId)
    (viewport : InflatedViewport) (s : WalkState) :
    ∃ result, While.loop (walkStep Γ tree suppressed viewport) s = .some result :=
  While.loop_terminates (WellFounded.prod_lex Nat.lt_wfRel.wf Nat.lt_wfRel.wf) (I := fun _ => True)
    (fun s => (s.remaining, s.stack.length)) (fun _ _ _ h => ⟨trivial, walkStep_decreases h⟩) trivial

/-! ## Brackets -/

/-- Clips as brackets. -/
def clipBracket : DisplayItem → Option DyckStep
  | .pushClip _ => some .U
  | .popClip => some .D
  | _ => none

/-- The openings and closings among display items. -/
def clipWord (items : List DisplayItem) : List DyckStep := items.filterMap clipBracket

/-- The brackets of items, one after another. -/
theorem clipWord_append (a b : List DisplayItem) : clipWord (a ++ b) = clipWord a ++ clipWord b :=
  List.filterMap_append

/-- What a fragment paints opens and closes no clip. -/
theorem clipBracket_ownItems (fragment : Fragment) (style : LayoutStyle) (suppressBackground : Bool)
    (viewport : InflatedViewport) : ∀ item ∈ ownItems fragment style suppressBackground viewport, clipBracket item = none := by
  intro item hi
  unfold ownItems backgroundItems borderItems at hi
  split at hi
  · split at hi
    · rcases List.mem_append.1 hi with hi | hi
      · split at hi <;> simp at hi
        subst hi
        rfl
      · split at hi <;> simp at hi
        subst hi
        rfl
    · simp at hi
  · simp at hi
  · simp at hi
  · obtain ⟨run, -, rfl⟩ := List.mem_map.1 hi
    rfl

/-- What a fragment paints has no brackets. -/
theorem clipWord_ownItems (fragment : Fragment) (style : LayoutStyle) (suppressBackground : Bool)
    (viewport : InflatedViewport) : clipWord (ownItems fragment style suppressBackground viewport) = [] :=
  List.filterMap_eq_nil_iff.2 (clipBracket_ownItems fragment style suppressBackground viewport)

/-- Closing clips is closing brackets. -/
theorem clipWord_replicate (n : Nat) :
    clipWord (List.replicate n .popClip) = List.replicate n .D := by
  induction n with
  | zero => rfl
  | succ n ih =>
    rw [List.replicate_succ, List.replicate_succ, ← ih]
    rfl

/-- The clips open in the emitted items are the closings that wait on the stack. -/
def ClipsPending (s : WalkState) : Prop := Brackets.Opens (clipWord s.items) (s.stack.count .popClip)

/-- Every clip that is open has its end pending on the stack. -/
theorem walkStep_clipsPending (hs : ClipsPending s) (h : walkStep Γ tree suppressed viewport s = .inl s') :
    ClipsPending s' := by
  have count_children : ∀ ids : List FragmentId, (ids.map Frame.fragment).count .popClip = 0 := by
    intro ids
    rw [List.count_eq_zero]
    simp
  rcases walkStep_inl h with ⟨stack, hst, rfl⟩ | ⟨id, stack, remaining, hst, -, -, rfl⟩ |
    ⟨id, stack, remaining, fragment, hst, -, -, -, rfl⟩
  · unfold ClipsPending at hs ⊢
    rw [hst, List.count_cons_self] at hs
    rw [clipWord_append]
    exact hs.closing
  · unfold ClipsPending at hs ⊢
    rwa [hst, List.count_cons_of_ne (by simp)] at hs
  · unfold ClipsPending at hs ⊢
    rw [hst, List.count_cons_of_ne (by simp)] at hs
    simp only [visit, clipWord_append, clipWord_ownItems, List.append_nil, List.count_append, count_children,
      Nat.zero_add]
    unfold clipItems clipFrames
    split
    · rw [List.count_singleton_self, Nat.add_comm]
      exact hs.opening
    · simpa [clipWord] using hs

/-- What the walk returns closes every clip it opened. -/
theorem walk_balanced (hs : ClipsPending s) (h : While.loop (walkStep Γ tree suppressed viewport) s = .some (some items)) :
    Brackets.Balanced (clipWord items) := by
  obtain ⟨s', -, hs', hr⟩ := While.loop_invariant (fun _ _ => walkStep_clipsPending) hs h
  unfold ClipsPending at hs'
  rcases walkStep_inr hr with ⟨hst, heq⟩ | ⟨id, stack, hst, -, heq⟩ | ⟨id, stack, remaining, fragment, -, -, -, -, -, hnone⟩
  · obtain rfl := Option.some.inj heq
    rw [hst] at hs'
    exact hs'.balanced
  · obtain rfl := Option.some.inj heq
    rw [hst, List.count_cons_of_ne (by simp)] at hs'
    rw [clipWord_append, clipWord_replicate]
    exact hs'.close_all
  · cases hnone

/-! ## The panic -/

/-- The first fragments in document order below those on a stack, so many of them; on a malformed tree one may come again. -/
def firstFragments (tree : FragmentTree) : Nat → List FragmentId → List FragmentId
  | 0, _ | _, [] => []
  | n + 1, id :: stack => id :: firstFragments tree n (tree.kids id ++ stack)

/-- The fragment a frame is for. -/
def Frame.fragment? : Frame → Option FragmentId
  | .fragment id => some id
  | .popClip => none

/-- The fragments that the walk will still visit. -/
def ahead (tree : FragmentTree) (s : WalkState) : List FragmentId :=
  firstFragments tree s.remaining (s.stack.filterMap Frame.fragment?)

/-- Frames of fragments are for their fragments. -/
theorem filterMap_fragment (ids : List FragmentId) : ids.filterMap (Frame.fragment? ∘ Frame.fragment) = ids :=
  List.filterMap_some

/-- Nothing pending leads to no fragments. -/
theorem firstFragments_nil (tree : FragmentTree) (n : Nat) : firstFragments tree n [] = [] := by
  cases n <;> rfl

/-- An iteration that goes on visits none or the first of the fragments ahead, and in a region that is inside out none that
clips. -/
theorem walkStep_ahead (h : walkStep Γ tree suppressed viewport s = .inl s') :
    ahead tree s = ahead tree s' ∨ ∃ id, ahead tree s = id :: ahead tree s' ∧ (viewport.Proper ∨ ¬Clips Γ tree id) := by
  rcases walkStep_inl h with ⟨stack, hs, rfl⟩ | ⟨id, stack, remaining, hs, hr, hg, rfl⟩ |
    ⟨id, stack, remaining, fragment, hs, hr, hg, hclip, rfl⟩
  · refine Or.inl ?_
    unfold ahead
    rw [hs]
    rfl
  · refine Or.inr ⟨id, ?_, Or.inr ?_⟩
    · have hkids : tree.kids id = [] := by simp [FragmentTree.kids, hg]
      simp [ahead, hs, hr, Frame.fragment?, firstFragments, hkids]
    · rintro ⟨fragment, hg', -⟩
      rw [hg] at hg'
      cases hg'
  · refine Or.inr ⟨id, ?_, ?_⟩
    · have hkids : tree.kids id = fragment.children := by simp [FragmentTree.kids, hg]
      have hframes : ∀ style : LayoutStyle, (clipFrames style).filterMap Frame.fragment? = [] := by
        intro style
        unfold clipFrames
        split <;> rfl
      simp [ahead, visit, hframes, hs, hr, Frame.fragment?, firstFragments, hkids, filterMap_fragment]
    · by_cases hproper : viewport.Proper
      · exact Or.inl hproper
      · refine Or.inr ?_
        rintro ⟨fragment', hg', hover⟩
        obtain rfl := Option.some.inj (hg.symm.trans hg')
        exact hproper (hclip hover)

/-- What is ahead was ahead before. -/
theorem steps_ahead (h : While.Steps (walkStep Γ tree suppressed viewport) s s') {id : FragmentId} (hid : id ∈ ahead tree s') :
    id ∈ ahead tree s := by
  induction h with
  | refl => exact hid
  | tail _ hstep ih =>
    refine ih ?_
    rcases walkStep_ahead hstep with heq | ⟨first, heq, -⟩
    · rw [heq]
      exact hid
    · rw [heq]
      exact List.mem_cons_of_mem _ hid

/-- In a region that is inside out every fragment ahead that clips stays ahead. -/
theorem walkStep_clips (hproper : ¬viewport.Proper) (h : walkStep Γ tree suppressed viewport s = .inl s') :
    (∃ id ∈ ahead tree s', Clips Γ tree id) ↔ ∃ id ∈ ahead tree s, Clips Γ tree id := by
  rcases walkStep_ahead h with heq | ⟨id, heq, hp⟩
  · rw [heq]
  · have hnot : ¬Clips Γ tree id := hp.resolve_left hproper
    simp [heq, hnot]

/-- The walk panics exactly if the region is inside out and it comes to a fragment that clips. -/
theorem walk_panics_iff {result : Option (List DisplayItem)}
    (h : While.loop (walkStep Γ tree suppressed viewport) s = .some result) :
    result = none ↔ ¬viewport.Proper ∧ ∃ id ∈ ahead tree s, Clips Γ tree id := by
  by_cases hproper : viewport.Proper
  · obtain ⟨s', -, -, hr⟩ := While.loop_invariant (I := fun _ => True) (fun _ _ _ _ => trivial) trivial h
    rcases walkStep_inr hr with ⟨-, rfl⟩ | ⟨id, stack, -, -, rfl⟩ | ⟨id, stack, remaining, fragment, -, -, -, -, hnot, -⟩
    · simp [hproper]
    · simp [hproper]
    · exact absurd hproper hnot
  · obtain ⟨s', -, hs', hr⟩ := While.loop_invariant
      (I := fun s' => (∃ id ∈ ahead tree s', Clips Γ tree id) ↔ ∃ id ∈ ahead tree s, Clips Γ tree id)
      (fun _ _ hI hstep => (walkStep_clips hproper hstep).trans hI) Iff.rfl h
    rw [← hs', and_iff_right hproper]
    rcases walkStep_inr hr with ⟨hst, rfl⟩ | ⟨id, stack, hst, hzero, rfl⟩ |
      ⟨id, stack, remaining, fragment, hst, hrem, hg, hover, -, rfl⟩
    · simp [ahead, hst, firstFragments_nil]
    · simp [ahead, hst, hzero, firstFragments]
    · refine iff_of_true rfl ⟨id, ?_, fragment, hg, hover⟩
      simp [ahead, hst, hrem, Frame.fragment?, firstFragments]

/-! ## The number of fragments popped -/

/-- Whether the iteration from a state pops a fragment. -/
def popsFragment (s : WalkState) : Bool :=
  match s.stack with
  | .fragment _ :: _ => true
  | _ => false

/-- The fragments popped by the first `n` iterations. -/
def fragmentPops (Γ : FloatOps) (tree : FragmentTree) (suppressed : Option FragmentId) (viewport : InflatedViewport)
    (n : Nat) (s : WalkState) : Nat :=
  ((While.trace (walkStep Γ tree suppressed viewport) n s).filter popsFragment).length

/-- No more fragments are popped than there are, and one. -/
theorem fragmentPops_le (n : Nat) (s : WalkState) :
    fragmentPops Γ tree suppressed viewport n s ≤ s.remaining + 1 := by
  induction n generalizing s with
  | zero => simp [fragmentPops, While.trace]
  | succ n ih =>
    unfold fragmentPops at *
    cases h : walkStep Γ tree suppressed viewport s with
    | inr r =>
      simp only [While.trace, h]
      exact (List.length_filter_le _ _).trans (by simp)
    | inl s' =>
      simp only [While.trace, h, List.filter_cons]
      have := ih s'
      rcases walkStep_inl h with ⟨stack, hst, rfl⟩ | ⟨id, stack, remaining, hst, hr, -, rfl⟩ |
        ⟨id, stack, remaining, fragment, hst, hr, -, -, rfl⟩
      · simpa [popsFragment, hst] using this
      · simpa [popsFragment, hst, hr] using this
      · simpa [popsFragment, hst, hr, visit] using this

/-! ## The search for an element -/

/-- The search for an element's fragment returns. -/
theorem findElementFragment_terminates (tree : FragmentTree) (doc : Document) (localName : String) :
    ∃ id, findElementFragment tree doc localName = .some id := by
  refine While.loop_terminates Nat.lt_wfRel.wf (I := fun _ => True) (fun s => s.2) ?_ trivial
  intro s s' _ h
  refine ⟨trivial, ?_⟩
  obtain ⟨stack, remaining⟩ := s
  match stack with
  | [] => simp [findStep] at h
  | id :: stack =>
    simp only [findStep] at h
    split at h
    · cases h
    · have hlt : remaining - 1 < remaining := by omega
      split at h
      · cases h; exact hlt
      · split at h
        · cases h
        · cases h; exact hlt

/-- The search for the background of the canvas returns. -/
theorem canvasBackground_terminates (Γ : FloatOps) (tree : FragmentTree) (doc : Document) :
    ∃ canvas, canvasBackground Γ tree doc = .some canvas := by
  obtain ⟨htmlId, hh⟩ := findElementFragment_terminates tree doc "html"
  obtain ⟨bodyId, hb⟩ := findElementFragment_terminates tree doc "body"
  unfold canvasBackground
  rw [hh, hb]
  cases h : propagated Γ tree htmlId with
  | some canvas => exact ⟨canvas, by simp [h]⟩
  | none => exact ⟨_, by simp [h]; rfl⟩

end

end Paint

end ChromeLight
