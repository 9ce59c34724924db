import Mathlib.Data.List.TakeWhile

/-!
# The partition point of a list

Binary search for the first element that does not satisfy a predicate, in a list in which the elements that do come first. A
half of the candidates is dropped at each step; the element before the candidates always satisfies the predicate.
-/

namespace PartitionPoint

variable {α : Type*}

/-- Narrow a window of candidates down to one, dropping the half that the element in the middle rules out. -/
def narrow (p : α → Bool) (l : List α) (base size : Nat) : Nat :=
  if 1 < size then
    let half := size / 2
    narrow p l (if (l[base + half]?.map p).getD false then base + half else base) (size - half)
  else base
termination_by size

/-- How many elements of a partitioned list satisfy the predicate. -/
def partitionPoint (p : α → Bool) (l : List α) : Nat :=
  if l.length = 0 then 0
  else
    let base := narrow p l 0 l.length
    if (l[base]?.map p).getD false then base + 1 else base

variable {p : α → Bool} {l : List α}

/-- The elements that satisfy the predicate come first. -/
def Partitioned (p : α → Bool) (l : List α) : Prop := l.Pairwise fun a b => p b = true → p a = true

/-- In a partitioned list an element satisfies the predicate exactly if it is one of the first so many. -/
theorem Partitioned.getElem_iff (h : Partitioned p l) {i : Nat} (hi : i < l.length) :
    p l[i] = true ↔ i < (l.takeWhile p).length := by
  induction l generalizing i with
  | nil => exact absurd hi (Nat.not_lt_zero i)
  | cons a l ih =>
    obtain ⟨ha, hl⟩ := List.pairwise_cons.1 h
    by_cases hpa : p a = true
    · rw [List.takeWhile_cons_of_pos hpa, List.length_cons]
      cases i with
      | zero => simp [hpa]
      | succ i =>
        rw [List.getElem_cons_succ, ih hl (Nat.lt_of_succ_lt_succ hi)]
        omega
    · rw [List.takeWhile_cons_of_neg hpa, List.length_nil]
      refine ⟨fun hp => absurd ?_ hpa, fun hlt => absurd hlt (Nat.not_lt_zero i)⟩
      cases i with
      | zero => exact hp
      | succ i => exact ha _ (List.getElem_mem _) hp

theorem Partitioned.test_iff (h : Partitioned p l) {i : Nat} (hi : i < l.length) :
    (l[i]?.map p).getD false = true ↔ i < (l.takeWhile p).length := by
  rw [List.getElem?_eq_getElem hi, Option.map_some, Option.getD_some]
  exact h.getElem_iff hi

theorem narrow_of_one {base size : Nat} (hone : ¬1 < size) : narrow p l base size = base := by
  rw [narrow, if_neg hone]

/-- The element in the middle satisfies the predicate: so do those before it. -/
theorem narrow_upper {base size : Nat} (hmore : 1 < size) (htest : (l[base + size / 2]?.map p).getD false = true) :
    narrow p l base size = narrow p l (base + size / 2) (size - size / 2) := by
  rw [narrow, if_pos hmore]
  dsimp only
  rw [if_pos htest]

/-- The element in the middle does not satisfy the predicate: neither do those after it. -/
theorem narrow_lower {base size : Nat} (hmore : 1 < size) (htest : ¬(l[base + size / 2]?.map p).getD false = true) :
    narrow p l base size = narrow p l base (size - size / 2) := by
  rw [narrow, if_pos hmore]
  dsimp only
  rw [if_neg htest]

/-- The window keeps the partition point inside, and ends up on the last element that satisfies the predicate, or on the first
one of all. -/
theorem Partitioned.narrow_spec (h : Partitioned p l) (size : Nat) :
    ∀ base, 0 < size → base + size ≤ l.length → base = 0 ∨ base < (l.takeWhile p).length →
      (l.takeWhile p).length ≤ base + size →
      narrow p l base size < l.length ∧ (narrow p l base size = 0 ∨ narrow p l base size < (l.takeWhile p).length) ∧
        (l.takeWhile p).length ≤ narrow p l base size + 1 := by
  induction size using Nat.strong_induction_on with
  | _ size ih =>
    intro base hsize hin hlo hhi
    by_cases hmore : 1 < size
    · have hmid : base + size / 2 < l.length := by omega
      by_cases htest : (l[base + size / 2]?.map p).getD false = true
      · have hmid' := (h.test_iff hmid).1 htest
        rw [narrow_upper hmore htest]
        exact ih _ (by omega) _ (by omega) (by omega) (.inr hmid') (by omega)
      · have hmid' := mt (h.test_iff hmid).2 htest
        rw [narrow_lower hmore htest]
        exact ih _ (by omega) _ (by omega) (by omega) hlo (by omega)
    · rw [narrow_of_one hmore]
      exact ⟨by omega, hlo, by omega⟩

/-- In a partitioned list the binary search finds how many elements satisfy the predicate. -/
theorem Partitioned.partitionPoint_eq (h : Partitioned p l) : partitionPoint p l = (l.takeWhile p).length := by
  unfold partitionPoint
  by_cases hnil : l.length = 0
  · rw [if_pos hnil, List.length_eq_zero_iff.1 hnil]
    rfl
  · obtain ⟨hlt, hlo, hhi⟩ := h.narrow_spec l.length 0 (by omega) (by omega) (.inl rfl)
      (by rw [Nat.zero_add]; exact (List.takeWhile_prefix p).length_le)
    rw [if_neg hnil]
    dsimp only
    by_cases htest : (l[narrow p l 0 l.length]?.map p).getD false = true
    · have := (h.test_iff hlt).1 htest
      rw [if_pos htest]
      omega
    · have := mt (h.test_iff hlt).2 htest
      rw [if_neg htest]
      omega

/-- In a partitioned list, what is at the partition point is the first element that does not satisfy the predicate. -/
theorem Partitioned.getElem?_partitionPoint (h : Partitioned p l) :
    l[partitionPoint p l]? = l.find? fun a => !p a := by
  rw [h.partitionPoint_eq]
  clear h
  induction l with
  | nil => rfl
  | cons a l ih =>
    by_cases hpa : p a = true
    · rw [List.takeWhile_cons_of_pos hpa, List.length_cons, List.getElem?_cons_succ, ih, List.find?_cons_of_neg (by simp [hpa])]
    · rw [List.takeWhile_cons_of_neg hpa, List.find?_cons_of_pos (by simp [hpa])]
      rfl

end PartitionPoint
