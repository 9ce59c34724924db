import Mathlib.Order.Lattice
import Mathlib.Order.MinMax

/-!
# Boxes

Boxes of a plane by their edges, the left and the top one their own, the right and the bottom one not. Any edges make a box; it is
nonempty where they are in order. Boxes agree if they are the same or both empty, and intersecting them keeps it that way.
-/

/-- A box, by its edges. -/
@[ext]
structure Box (α : Type*) where
  left : α
  top : α
  right : α
  bottom : α
deriving DecidableEq, Repr

namespace Box

variable {α : Type*} [LinearOrder α] {a b c : Box α}

/-- The overlap of two boxes. -/
def inter (a b : Box α) : Box α := ⟨max a.left b.left, max a.top b.top, min a.right b.right, min a.bottom b.bottom⟩

/-- There is something in the box. -/
def Nonempty (a : Box α) : Prop := a.left < a.right ∧ a.top < a.bottom

instance (a : Box α) : Decidable a.Nonempty := inferInstanceAs (Decidable (_ ∧ _))

/-- One box is inside another. -/
def Within (a b : Box α) : Prop := (b.left ≤ a.left ∧ a.right ≤ b.right) ∧ b.top ≤ a.top ∧ a.bottom ≤ b.bottom

instance (a b : Box α) : Decidable (a.Within b) := inferInstanceAs (Decidable (_ ∧ _))

/-- The intersection of a box with all of some others. -/
def interAll (a : Box α) (bs : List (Box α)) : Box α := bs.foldl inter a

/-- Two boxes are the same, or both empty. -/
def Agrees (a b : Box α) : Prop := a.Nonempty ∨ b.Nonempty → a = b

/-- The last box is the last one to be intersected with. -/
theorem interAll_concat (a : Box α) (bs : List (Box α)) (b : Box α) : a.interAll (bs ++ [b]) = (a.interAll bs).inter b := by
  rw [interAll, List.foldl_append]
  rfl

/-- The order of two boxes does not matter. -/
theorem inter_comm (a b : Box α) : a.inter b = b.inter a := by
  unfold inter
  rw [max_comm a.left, max_comm a.top, min_comm a.right, min_comm a.bottom]

/-- Three boxes overlap in any order. -/
theorem inter_assoc (a b c : Box α) : (a.inter b).inter c = a.inter (b.inter c) := by
  unfold inter
  rw [max_assoc, max_assoc, min_assoc, min_assoc]

/-- The part of a box inside one around it is all of it. -/
theorem Within.inter_eq (h : a.Within b) : a.inter b = a := by
  obtain ⟨⟨hl, hr⟩, ht, hb⟩ := h
  exact Box.ext (max_eq_left hl) (max_eq_left ht) (min_eq_left hr) (min_eq_left hb)

/-- The overlap is within the first box. -/
theorem inter_within (a b : Box α) : (a.inter b).Within a :=
  ⟨⟨le_max_left _ _, min_le_left _ _⟩, le_max_left _ _, min_le_left _ _⟩

/-- A box within a box within a box. -/
theorem Within.trans (hab : a.Within b) (hbc : b.Within c) : a.Within c :=
  ⟨⟨hbc.1.1.trans hab.1.1, hab.1.2.trans hbc.1.2⟩, hbc.2.1.trans hab.2.1, hab.2.2.trans hbc.2.2⟩

/-- The overlap with many boxes is within the first one. -/
theorem interAll_within (a : Box α) (bs : List (Box α)) : (a.interAll bs).Within a := by
  induction bs generalizing a with
  | nil => exact ⟨⟨le_rfl, le_rfl⟩, le_rfl, le_rfl⟩
  | cons b bs ih => exact (ih (a.inter b)).trans (inter_within a b)

/-- Where two boxes overlap, there is something in the first. -/
theorem Nonempty.of_inter (h : (a.inter b).Nonempty) : a.Nonempty :=
  ⟨(le_max_left _ _).trans_lt (h.1.trans_le (min_le_left _ _)), (le_max_left _ _).trans_lt (h.2.trans_le (min_le_left _ _))⟩

/-- A box around a nonempty one is nonempty. -/
theorem Within.nonempty (h : a.Within b) (ha : a.Nonempty) : b.Nonempty :=
  ⟨h.1.1.trans_lt (ha.1.trans_le h.1.2), h.2.1.trans_lt (ha.2.trans_le h.2.2)⟩

namespace Agrees

/-- A box agrees with itself. -/
protected theorem refl (a : Box α) : a.Agrees a := fun _ => rfl

/-- Agreement goes both ways. -/
protected theorem symm (h : a.Agrees b) : b.Agrees a := fun hne => (h hne.symm).symm

/-- Agreement passes on. -/
protected theorem trans (hab : a.Agrees b) (hbc : b.Agrees c) : a.Agrees c := by
  rintro (ha | hc)
  · obtain rfl := hab (.inl ha)
    exact hbc (.inl ha)
  · obtain rfl := hbc (.inr hc)
    exact hab (.inr hc)

/-- Boxes with nothing in them agree. -/
theorem of_empty (ha : ¬a.Nonempty) (hb : ¬b.Nonempty) : a.Agrees b := fun h => (h.elim ha hb).elim

/-- Boxes that agree have something in them together. -/
theorem nonempty_iff (h : a.Agrees b) : a.Nonempty ↔ b.Nonempty :=
  ⟨fun ha => h (.inl ha) ▸ ha, fun hb => h (.inr hb) ▸ hb⟩

/-- Overlaps of boxes that agree do so, from the left. -/
theorem inter_left (h : a.Agrees b) (c : Box α) : (a.inter c).Agrees (b.inter c) := by
  rintro (ha | hb)
  · rw [h (.inl ha.of_inter)]
  · rw [h (.inr hb.of_inter)]

/-- Overlaps of boxes that agree do so, from the right. -/
theorem inter_right (h : a.Agrees b) (c : Box α) : (c.inter a).Agrees (c.inter b) := by
  rw [inter_comm c a, inter_comm c b]
  exact h.inter_left c

/-- Overlaps with many boxes keep the agreement. -/
theorem interAll (h : a.Agrees b) (bs : List (Box α)) : (a.interAll bs).Agrees (b.interAll bs) := by
  induction bs generalizing a b with
  | nil => exact h
  | cons c bs ih => exact ih (h.inter_left c)

/-- Inside a box, others that agree there do. -/
theorem inter_within (h : (c.inter a).Agrees (c.inter b)) {d : Box α} (hd : d.Within c) : (d.inter a).Agrees (d.inter b) := by
  rw [← hd.inter_eq, inter_assoc, inter_assoc]
  exact h.inter_right d

/-- A nonempty box is inside both or neither. -/
theorem within_iff (h : a.Agrees b) (hc : c.Nonempty) : c.Within a ↔ c.Within b :=
  ⟨fun hw => h (.inl (hw.nonempty hc)) ▸ hw, fun hw => h (.inr (hw.nonempty hc)) ▸ hw⟩

end Agrees

end Box
