import ChromeLight.Lemmas.Push
import ChromeLight.Lemmas.Outline

/-!
# Subtrees are ranges of the arena

The fragments from the position a block remembers to the block's own fragment are those at and below it (`Contiguous`). For a
leaf this is so in any arena (`layoutLeaf_contiguous`). For a container it is so in every state of the walk: the fragments
since a frame was pushed are the trees of the children done so far (`Piled`).
-/

namespace ChromeLight

open Forest (Child)
open Postorder (Stored)

/-- The child list of a fragment in an arena. -/
def Arenas.kids (a : Arenas) (id : FragmentId) : List FragmentId := ((a.fragments[id.index]?).map Fragment.children).getD []

theorem Arenas.kids_of_entry {a : Arenas} {id : FragmentId} {d : FragmentData} {children : List FragmentId}
    (h : a.entry id = some (d, children)) : a.kids id = children := by
  obtain ⟨f, hf, hs⟩ := Option.bind_eq_some_iff.1 h
  obtain ⟨style, -, hd⟩ := Option.map_eq_some_iff.1 hs
  rw [Arenas.kids, hf]
  exact congrArg Prod.snd hd

/-- A forest an arena holds follows the arena's child lists. -/
theorem Arenas.follows_kids {a : Arenas} {start : Nat} {F : Forest FragmentData} (h : Stored FragmentId.mk a.entry start F) :
    (Postorder.ids FragmentId.mk start F).Follows a.kids := by
  induction F generalizing start with
  | nil => trivial
  | cons d K R ihK ihR =>
    obtain ⟨he, hK, hR⟩ := h
    exact ⟨(Arenas.kids_of_entry he).symm, ihK hK, ihR hR⟩

namespace Block

variable {Γ : FloatOps} {shape : Shaper} {tree : BoxTree} {document : Document} {viewport : Size}

/-- The fragments of an arena from a position on are those at and below a fragment. -/
def Contiguous (start : Nat) (r : FragmentId × Arenas) : Prop :=
  ∀ x : FragmentId, (start ≤ x.index ∧ x.index < r.2.fragments.length) ↔ Relation.ReflTransGen (Child r.2.kids) x r.1

theorem contiguous_of_stored {start : Nat} {r : FragmentId × Arenas} {d : FragmentData} {K : Forest FragmentData}
    (hst : Stored FragmentId.mk r.2.entry start (.cons d K .nil)) (hid : r.1 = ⟨start + K.size⟩)
    (hlen : r.2.fragments.length = start + K.size + 1) : Contiguous start r := by
  intro x
  have hroots : (Postorder.ids FragmentId.mk start (.cons d K .nil)).roots = [r.1] := by
    rw [hid]
    rfl
  rw [← (Arenas.follows_kids hst).mem_preorder_iff hroots x, Postorder.mem_preorder_ids, hlen]
  have hsize : (Forest.cons d K .nil).size = K.size + 1 := rfl
  rw [hsize]
  constructor
  · rintro ⟨h1, h2⟩
    exact ⟨x.index, h1, by omega, rfl⟩
  · rintro ⟨i, h1, h2, rfl⟩
    exact ⟨h1, by omega⟩

/-- The fragments of a leaf and its lines. -/
theorem layoutLeaf_contiguous (Γ : FloatOps) (shape : Shaper) (tree : BoxTree) (document : Document) (child : LayoutBox)
    (placement : ChildPlacement) (a : Arenas) (error : Option LayoutError) :
    let r := layoutLeaf Γ shape tree document child placement a error
    Contiguous a.fragments.length (r.1.1, r.2.1) := by
  have hlays := layoutLeaf_lays Γ shape tree document child placement a error
  refine contiguous_of_stored hlays.stored ?_ ?_
  · exact (List.cons.inj hlays.ids).1
  · rw [hlays.length]
    simp only [Forest.size]
    omega

/-! ## The stack -/

/-- But for positions, appending a block adds its fragment and nothing else. -/
theorem push_entry (Γ : FloatOps) (b : Finished) (a : Arenas) :
    (b.push Γ a).2.entry = (a.push b.style b.fragment).2.entry := by
  rw [b.push_eq]
  exact Arenas.entry_eq_of_still (map_shiftFrom _ _ _ _) rfl

/-- Appending a block keeps what the arena holds. -/
theorem entry_push (Γ : FloatOps) (b : Finished) {a : Arenas} {id : FragmentId} {x : FragmentData × List FragmentId}
    (h : a.entry id = some x) : (b.push Γ a).2.entry id = some x := by
  rw [push_entry]
  exact Arenas.entry_push_of_some h b.style b.fragment

/-- A block is appended after the trees of its children. -/
theorem stored_push (Γ : FloatOps) (b : Finished) {a : Arenas} {F : Forest FragmentData}
    (hst : Stored FragmentId.mk a.entry b.fragStart F) (hlen : b.fragStart + F.size = a.fragments.length)
    (hroots : (Postorder.ids FragmentId.mk b.fragStart F).roots = b.children) :
    Stored FragmentId.mk (b.push Γ a).2.entry b.fragStart
      (.cons ⟨b.node, (b.fragment ⟨a.styles.length⟩).kind.unplaced, b.style⟩ F .nil) := by
  refine ⟨?_, hst.mono fun id x => entry_push Γ b, trivial⟩
  rw [push_entry, hlen, Arenas.entry_push_new a b.style b.fragment rfl, hroots]
  rfl

/-- The fragments since each frame was pushed are the trees of the children done so far; they end where the frame above was
pushed. -/
def Piled (a : Arenas) : Nat → List Frame → Prop
  | _, [] => True
  | stop, frame :: stack =>
    (∃ F, Stored FragmentId.mk a.entry frame.fragStart F ∧ frame.fragStart + F.size = stop ∧
      (Postorder.ids FragmentId.mk frame.fragStart F).roots = frame.childrenFragIds) ∧ Piled a frame.fragStart stack

theorem Piled.mono {a a' : Arenas} (h : ∀ id x, a.entry id = some x → a'.entry id = some x) {stop : Nat} {stack : List Frame}
    (hp : Piled a stop stack) : Piled a' stop stack := by
  induction stack generalizing stop with
  | nil => trivial
  | cons frame stack ih =>
    obtain ⟨⟨F, hst, hlen, hroots⟩, hrest⟩ := hp
    exact ⟨⟨F, hst.mono h, hlen, hroots⟩, ih hrest⟩

/-- A further child's tree on top of those a frame has. -/
theorem Piled.childDone {a a' : Arenas} {frame : Frame} {stack : List Frame} {d : FragmentData} {K : Forest FragmentData}
    {start : Nat} (hp : Piled a start (frame :: stack)) (h : ∀ id x, a.entry id = some x → a'.entry id = some x)
    (hst : Stored FragmentId.mk a'.entry start (.cons d K .nil)) (hlen : a'.fragments.length = start + K.size + 1)
    (origin : Point) (usedHeight margin : Au) :
    Piled a' a'.fragments.length (frame.childDone origin usedHeight margin ⟨start + K.size⟩ :: stack) := by
  obtain ⟨⟨F, hF, rfl, hroots⟩, hrest⟩ := hp
  have hboth : Stored FragmentId.mk a'.entry frame.fragStart (F ++ .cons d K .nil) :=
    Postorder.stored_append.2 ⟨hF.mono h, hst⟩
  refine ⟨⟨F ++ Forest.cons d K Forest.nil, hboth, ?_, ?_⟩, hrest.mono h⟩
  · rw [hlen, Forest.size_append]
    simp only [Forest.size, Frame.childDone]
    omega
  · show (Postorder.ids FragmentId.mk frame.fragStart (F ++ .cons d K .nil)).roots = _
    rw [Postorder.ids_append, Forest.roots_append, hroots]
    rfl

/-- Every iteration keeps the fragments piled. -/
theorem Piled.step {s s' : LayoutState} (hp : Piled s.arenas s.arenas.fragments.length s.stack)
    (hs : Advances Γ shape tree document s s') : Piled s'.arenas s'.arenas.fragments.length s'.stack := by
  cases hs with
  | missing => exact hp
  | container => exact ⟨⟨.nil, trivial, rfl, rfl⟩, hp⟩
  | @leaf top stack arenas arenas' memo error error' id child fragId usedHeight hc hg hk hl =>
    have hlays := layoutLeaf_lays Γ shape tree document child (placeChild Γ tree id child.style top.next memo).1 arenas error
    simp only [hl] at hlays
    obtain rfl := (List.cons.inj hlays.ids).1
    have hlen : arenas'.fragments.length = arenas.fragments.length + (leafOutline shape tree document child
        (placeChild Γ tree id child.style top.next memo).1.model.contentWidth).size + 1 := by
      rw [hlays.length]
      simp only [Forest.size]
      omega
    have hnext : Piled arenas arenas.fragments.length (top.next :: stack) := hp
    exact hnext.childDone hlays.kept hlays.stored hlen _ _ _
  | @finish top parent stack arenas memo error hdone =>
    obtain ⟨⟨F, hF, hlen, hroots⟩, hrest⟩ := hp
    have hst := stored_push Γ top.finished hF hlen hroots
    have hid : (top.finished.push Γ arenas).1 = ⟨top.fragStart + F.size⟩ := by
      rw [Finished.push_eq, hlen]
    rw [hid]
    refine hrest.childDone (fun id x => entry_push Γ top.finished) hst ?_ _ _ _
    rw [Finished.length_push, hlen]

/-- In every state of the walk, popping a frame appends the fragment on top of its subtree. -/
theorem push_contiguous {root : LayoutBox} {model : BoxModel} {s : LayoutState}
    (hs : While.Steps (runStep Γ shape tree document viewport) (startState tree viewport root model) s) {top : Frame}
    (hhead : s.stack.head? = some top) : Contiguous top.fragStart (top.finished.push Γ s.arenas) := by
  have hstart : Piled (startState tree viewport root model).arenas 0 (startState tree viewport root model).stack :=
    ⟨⟨.nil, trivial, rfl, rfl⟩, trivial⟩
  have hp : Piled s.arenas s.arenas.fragments.length s.stack :=
    hs.invariant (I := fun s => Piled s.arenas s.arenas.fragments.length s.stack)
      (fun _ _ h hb => Piled.step h (advances_of_runStep hb)) hstart
  obtain ⟨rest, hstack⟩ := List.head?_eq_some_iff.1 hhead
  rw [hstack] at hp
  obtain ⟨⟨F, hF, hlen, hroots⟩, -⟩ := hp
  refine contiguous_of_stored (stored_push Γ top.finished hF hlen hroots) ?_ ?_
  · rw [Finished.push_eq, hlen]
  · rw [Finished.length_push, hlen]

end Block

end ChromeLight
