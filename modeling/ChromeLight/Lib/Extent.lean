import Mathlib.Data.List.Basic
import Mathlib.Order.Lattice
import Mathlib.Order.MinMax
import Mathlib.Order.Defs.LinearOrder
import Mathlib.Data.Int.Order.Basic

/-!
# How far integers reach to both sides of zero

The greatest of a list of integers and zero, the least of them and zero, and the sum of the two, in which positive and
negative extremes cancel. The extremes of two lists together are the extremes of their extremes (`greatest_append`,
`least_append`), but the sum of the extremes is not: collapsing two lists to one number each and then these two numbers
loses the extremes that cancelled inside one list. `collapse_pair_eq_iff` says exactly when that changes nothing.
-/

namespace Extent

/-- The greatest of the integers and zero. -/
def greatest : List Int → Int
  | [] => 0
  | i :: l => max i (greatest l)

/-- The least of the integers and zero. -/
def least : List Int → Int
  | [] => 0
  | i :: l => min i (least l)

/-- The two extremes added up. -/
def collapse (l : List Int) : Int := greatest l + least l

variable {l m : List Int}

theorem greatest_nonneg (l : List Int) : 0 ≤ greatest l := by
  induction l with
  | nil => exact Int.le_refl 0
  | cons i l ih =>
    rw [greatest]
    omega

theorem least_nonpos (l : List Int) : least l ≤ 0 := by
  induction l with
  | nil => exact Int.le_refl 0
  | cons i l ih =>
    rw [least]
    omega

theorem greatest_append (l m : List Int) : greatest (l ++ m) = max (greatest l) (greatest m) := by
  induction l with
  | nil => exact (max_eq_right (greatest_nonneg m)).symm
  | cons i l ih =>
    rw [List.cons_append, greatest, greatest, ih]
    omega

theorem least_append (l m : List Int) : least (l ++ m) = min (least l) (least m) := by
  induction l with
  | nil => exact (min_eq_right (least_nonpos m)).symm
  | cons i l ih =>
    rw [List.cons_append, least, least, ih]
    omega

theorem greatest_le {b : Int} (h : ∀ i ∈ l, i ≤ b) (hb : 0 ≤ b) : greatest l ≤ b := by
  induction l with
  | nil => exact hb
  | cons i l ih =>
    have hi := h i List.mem_cons_self
    have := ih fun j hj => h j (List.mem_cons_of_mem _ hj)
    rw [greatest]
    omega

theorem le_least {b : Int} (h : ∀ i ∈ l, b ≤ i) (hb : b ≤ 0) : b ≤ least l := by
  induction l with
  | nil => exact hb
  | cons i l ih =>
    have hi := h i List.mem_cons_self
    have := ih fun j hj => h j (List.mem_cons_of_mem _ hj)
    rw [least]
    omega

/-- The first list reaches at least as far as the second, to both sides. -/
def Reaches (l m : List Int) : Prop := greatest m ≤ greatest l ∧ least l ≤ least m

/-- Nothing that cancelled inside one of the two lists matters to the other. Where both collapse to one side of zero, the
list that collapses to the number farther from zero reaches farther to both sides; where they collapse to opposite sides,
what the one that stays positive lost to its negatives is what the other one has in positives. -/
def Compatible (l m : List Int) : Prop :=
  (0 ≤ collapse l ∧ 0 ≤ collapse m ∧
    ((Reaches l m ∧ collapse m ≤ collapse l) ∨ (Reaches m l ∧ collapse l ≤ collapse m))) ∨
  (collapse l ≤ 0 ∧ collapse m ≤ 0 ∧
    ((Reaches l m ∧ collapse l ≤ collapse m) ∨ (Reaches m l ∧ collapse m ≤ collapse l))) ∨
  (0 < collapse l ∧ collapse m < 0 ∧ greatest m = -least l) ∨
  (collapse l < 0 ∧ 0 < collapse m ∧ greatest l = -least m)

instance (l m : List Int) : Decidable (Reaches l m) := inferInstanceAs (Decidable (_ ∧ _))

instance (l m : List Int) : Decidable (Compatible l m) := inferInstanceAs (Decidable (_ ∨ _))

/-- Two numbers on one side of zero collapse to the one farther from zero, two on opposite sides to their sum. -/
theorem collapse_pair (a b : Int) :
    (0 ≤ a → 0 ≤ b → collapse [a, b] = max a b) ∧ (a ≤ 0 → b ≤ 0 → collapse [a, b] = min a b) ∧
      (a ≤ 0 → 0 ≤ b → collapse [a, b] = a + b) ∧ (0 ≤ a → b ≤ 0 → collapse [a, b] = a + b) := by
  simp only [collapse, greatest, least]
  refine ⟨fun ha hb => ?_, fun ha hb => ?_, fun ha hb => ?_, fun ha hb => ?_⟩ <;> omega

theorem collapse_append (l m : List Int) :
    collapse (l ++ m) = max (greatest l) (greatest m) + min (least l) (least m) := by
  rw [collapse, greatest_append, least_append]

/-- Collapsing two lists to one number each, and then the two numbers, is collapsing both lists together exactly if the lists
are compatible. -/
theorem collapse_pair_eq_iff (l m : List Int) :
    collapse [collapse l, collapse m] = collapse (l ++ m) ↔ Compatible l m := by
  have hl := greatest_nonneg l
  have hm := greatest_nonneg m
  have hl' := least_nonpos l
  have hm' := least_nonpos m
  have hcl : collapse l = greatest l + least l := rfl
  have hcm : collapse m = greatest m + least m := rfl
  obtain ⟨hpos, hneg, hmixed, hmixed'⟩ := collapse_pair (collapse l) (collapse m)
  unfold Compatible Reaches
  rw [collapse_append]
  -- what the pair collapses to depends on the two signs
  rcases lt_or_ge (collapse l) 0 with hsl | hsl <;> rcases lt_or_ge (collapse m) 0 with hsm | hsm
  · rw [hneg (Int.le_of_lt hsl) (Int.le_of_lt hsm)]
    omega
  · rw [hmixed (Int.le_of_lt hsl) hsm]
    omega
  · rw [hmixed' hsl (Int.le_of_lt hsm)]
    omega
  · rw [hpos hsl hsm]
    constructor
    · intro h
      exact .inl ⟨hsl, hsm, by omega⟩
    · rintro (h | h | h | h) <;> omega

end Extent
