import ChromeLight.Block

/-!
# What a finished block appends

Appending the fragment of a block and moving its subtree, in one equation for both positions: a static block is moved by
zero.
-/

namespace ChromeLight

namespace Block

theorem shiftRect_zero (r : Rect) : shiftRect .zero .zero r = r := by
  simp only [shiftRect, Au.saturatingAdd_zero]

theorem shiftFragment_zero (f : Fragment) : shiftFragment .zero .zero f = f := by
  simp only [shiftFragment, shiftRect_zero]

theorem shiftFrom_zero (start : Nat) (fragments : List Fragment) : shiftFrom start .zero .zero fragments = fragments := by
  have hid : shiftFragment .zero .zero = id := funext shiftFragment_zero
  rw [shiftFrom, hid, List.map_id, List.take_append_drop]

/-- A move from the end of a part on moves the rest only. -/
theorem shiftFrom_append (a b : List Fragment) (dx dy : Au) :
    shiftFrom a.length dx dy (a ++ b) = a ++ b.map (shiftFragment dx dy) := by
  rw [shiftFrom, List.take_left, List.drop_left]

theorem length_shiftFrom (start : Nat) (dx dy : Au) (fragments : List Fragment) :
    (shiftFrom start dx dy fragments).length = fragments.length := by
  rw [shiftFrom, List.length_append, List.length_map, ← List.length_append, List.take_append_drop]

/-- A box's own offset in a containing block, zero for a static one. -/
def relativeOffset (Γ : FloatOps) (style : LayoutStyle) (cbWidth : Au) (cbHeight : Option Au) : Au × Au :=
  if style.position = .relative then resolveOffset Γ style cbWidth cbHeight else (.zero, .zero)

def Finished.offset (Γ : FloatOps) (b : Finished) : Au × Au := relativeOffset Γ b.style b.cbWidth b.cbHeight

theorem Finished.push_eq (Γ : FloatOps) (b : Finished) (a : Arenas) :
    b.push Γ a = (⟨a.fragments.length⟩,
      { fragments := shiftFrom b.fragStart (b.offset Γ).1 (b.offset Γ).2 (a.fragments ++ [b.fragment ⟨a.styles.length⟩])
        styles := a.styles ++ [b.style] }) := by
  unfold Finished.push Finished.offset relativeOffset
  by_cases hp : b.style.position = .relative
  · simp only [if_pos hp]
    rfl
  · simp only [if_neg hp, shiftFrom_zero]
    rfl

/-- The fragment of a block as it is once it has been moved. -/
def Finished.settled (Γ : FloatOps) (b : Finished) (style : StyleId) : Fragment :=
  shiftFragment (b.offset Γ).1 (b.offset Γ).2 (b.fragment style)

theorem Finished.length_push (Γ : FloatOps) (b : Finished) (a : Arenas) :
    (b.push Γ a).2.fragments.length = a.fragments.length + 1 := by
  rw [b.push_eq, length_shiftFrom, List.length_append, List.length_singleton]

/-- A block's own fragment is the last one. -/
theorem Finished.getLast_push (Γ : FloatOps) (b : Finished) (a : Arenas) (h : b.fragStart ≤ a.fragments.length) :
    (b.push Γ a).2.fragments.getLast? = some (b.settled Γ ⟨a.styles.length⟩) := by
  rw [b.push_eq]
  simp only [shiftFrom, List.drop_append_of_le_length h, List.map_append, List.map_cons, List.map_nil, ← List.append_assoc]
  exact List.getLast?_concat

end Block

end ChromeLight
