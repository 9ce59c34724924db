import ChromeLight.Block
import ChromeLight.Lib.Extent
import ChromeLight.Lib.Forest

/-!
# The margin chains and their memo

What `effectiveMargin` returns, whatever is in the memo already. The margins of a box's chain (`chainOf`) are those the chain
loop meets with an empty memo. A memo is good (`MemoGood`) when every value in it is the collapsed value of the chain of its
box in the containing block the layout gives that box, and when the box of a value has a parent that has one too, or is the
root: then a box that is not in the memo has no box below it there, so the loop is never cut short, and the values it enters
are those of the suffixes of one chain.
-/

namespace ChromeLight

open Forest (Child)

/-! ## Collapsing -/

/-- The margins as numbers of units. -/
def unitsOf (margins : List Au) : List Int := margins.map Au.units

namespace Block

theorem greatest_isI32 (ms : List Au) : Extent.greatest (unitsOf ms) ≤ 2147483647 := by
  refine Extent.greatest_le (fun i hi => ?_) (by omega)
  obtain ⟨m, -, rfl⟩ := List.mem_map.1 hi
  exact m.isI32.2

theorem least_isI32 (ms : List Au) : -2147483648 ≤ Extent.least (unitsOf ms) := by
  refine Extent.le_least (fun i hi => ?_) (by omega)
  obtain ⟨m, -, rfl⟩ := List.mem_map.1 hi
  exact m.isI32.1

theorem units_foldl_max (ms : List Au) (acc : Au) (h : 0 ≤ acc.units) :
    (ms.foldl (fun acc m => max acc (max m .zero)) acc).units = max acc.units (Extent.greatest (unitsOf ms)) := by
  induction ms generalizing acc with
  | nil => exact (max_eq_left h).symm
  | cons m ms ih =>
    rw [List.foldl_cons, ih _ (by rw [Au.units_max]; omega)]
    simp only [Au.units_max, Au.units_zero, unitsOf, List.map_cons, Extent.greatest]
    omega

theorem units_foldl_min (ms : List Au) (acc : Au) (h : acc.units ≤ 0) :
    (ms.foldl (fun acc m => min acc (min m .zero)) acc).units = min acc.units (Extent.least (unitsOf ms)) := by
  induction ms generalizing acc with
  | nil => exact (min_eq_left h).symm
  | cons m ms ih =>
    rw [List.foldl_cons, ih _ (by rw [Au.units_min]; omega)]
    simp only [Au.units_min, Au.units_zero, unitsOf, List.map_cons, Extent.least]
    omega

/-- A collapsed set of margins never saturates. -/
theorem units_collapseMarginSet (ms : List Au) : (collapseMarginSet ms).units = Extent.collapse (unitsOf ms) := by
  have h1 := greatest_isI32 ms
  have h2 := least_isI32 ms
  have h3 := Extent.greatest_nonneg (unitsOf ms)
  have h4 := Extent.least_nonpos (unitsOf ms)
  unfold collapseMarginSet Extent.collapse
  rw [Au.units_saturatingAdd, units_foldl_max _ _ (Int.le_refl 0), units_foldl_min _ _ (Int.le_refl 0)]
  simp only [Au.units_zero]
  omega

/-! ## The values entered for a chain -/

theorem lookup_set (memo : List (Option Au)) (id other : BoxId) (v : Au) (h : id.index < memo.length) :
    lookup (memo.set id.index (some v)) other = if other = id then some v else lookup memo other := by
  obtain ⟨i⟩ := id
  obtain ⟨j⟩ := other
  unfold lookup
  rw [List.getElem?_set]
  by_cases hij : i = j
  · subst hij
    simp [show i < memo.length from h]
  · have : ¬(⟨j⟩ : BoxId) = ⟨i⟩ := fun e => hij (BoxId.mk.inj e).symm
    simp [hij, this]

/-- The state after the suffix from a link on: the extremes of its margins. -/
theorem foldr_suffixStep (chain : List (BoxId × Au)) (memo : List (Option Au)) :
    let s := chain.foldr suffixStep { maxPositive := .zero, minNegative := .zero, memo }
    s.maxPositive.units = Extent.greatest (unitsOf (chain.map Prod.snd)) ∧
      s.minNegative.units = Extent.least (unitsOf (chain.map Prod.snd)) ∧ s.memo.length = memo.length := by
  induction chain with
  | nil => exact ⟨rfl, rfl, rfl⟩
  | cons link chain ih =>
    obtain ⟨h1, h2, h3⟩ := ih
    simp only [List.foldr_cons, suffixStep, List.map_cons, unitsOf, Extent.greatest, Extent.least, Au.units_max,
      Au.units_min, Au.units_zero, List.length_set] at h1 h2 h3 ⊢
    have := Extent.greatest_nonneg ((chain.map Prod.snd).map Au.units)
    have := Extent.least_nonpos ((chain.map Prod.snd).map Au.units)
    exact ⟨by omega, by omega, h3⟩

theorem memoizeSuffixCollapse_cons (link : BoxId × Au) (chain : List (BoxId × Au)) (memo : List (Option Au)) :
    memoizeSuffixCollapse (link :: chain) memo = (memoizeSuffixCollapse chain memo).set link.1.index
      (some (collapseMarginSet ((link :: chain).map Prod.snd))) := by
  obtain ⟨h1, h2, -⟩ := foldr_suffixStep (link :: chain) memo
  unfold memoizeSuffixCollapse
  simp only [List.foldr_cons, suffixStep] at h1 h2 ⊢
  congr 2
  refine Au.ext_units ?_
  have h3 := greatest_isI32 ((link :: chain).map Prod.snd)
  have h4 := least_isI32 ((link :: chain).map Prod.snd)
  have h5 := Extent.greatest_nonneg (unitsOf ((link :: chain).map Prod.snd))
  have h6 := Extent.least_nonpos (unitsOf ((link :: chain).map Prod.snd))
  rw [units_collapseMarginSet, Au.units_saturatingAdd, Extent.collapse, h1, h2]
  omega

theorem length_memoizeSuffixCollapse (chain : List (BoxId × Au)) (memo : List (Option Au)) :
    (memoizeSuffixCollapse chain memo).length = memo.length := (foldr_suffixStep chain memo).2.2

/-- Only the boxes of the chain get a value. -/
theorem lookup_memoize_of_not_mem {chain : List (BoxId × Au)} {memo : List (Option Au)} {id : BoxId}
    (hlt : ∀ link ∈ chain, link.1.index < memo.length) (h : id ∉ chain.map Prod.fst) :
    lookup (memoizeSuffixCollapse chain memo) id = lookup memo id := by
  induction chain with
  | nil => rfl
  | cons link chain ih =>
    rw [List.map_cons, List.mem_cons, not_or] at h
    have hl := hlt link List.mem_cons_self
    rw [memoizeSuffixCollapse_cons, lookup_set _ _ _ _ (by rwa [length_memoizeSuffixCollapse]), if_neg h.1]
    exact ih (fun l hl => hlt l (List.mem_cons_of_mem _ hl)) h.2

/-- Every box of a chain gets the collapsed value of its own suffix. -/
theorem lookup_memoize {before after : List (BoxId × Au)} {link : BoxId × Au} {memo : List (Option Au)}
    (hlt : ∀ l ∈ before ++ link :: after, l.1.index < memo.length)
    (hn : ((before ++ link :: after).map Prod.fst).Nodup) :
    lookup (memoizeSuffixCollapse (before ++ link :: after) memo) link.1
      = some (collapseMarginSet ((link :: after).map Prod.snd)) := by
  induction before with
  | nil =>
    have hl := hlt link List.mem_cons_self
    rw [List.nil_append, memoizeSuffixCollapse_cons, lookup_set _ _ _ _ (by rwa [length_memoizeSuffixCollapse]),
      if_pos rfl]
  | cons first before ih =>
    rw [List.cons_append, List.map_cons, List.nodup_cons] at hn
    have hne : link.1 ≠ first.1 := by
      intro e
      exact hn.1 (e ▸ List.mem_map_of_mem (List.mem_append_right _ List.mem_cons_self))
    have hl := hlt first List.mem_cons_self
    rw [List.cons_append, memoizeSuffixCollapse_cons, lookup_set _ _ _ _ (by rwa [length_memoizeSuffixCollapse]),
      if_neg hne]
    exact ih (fun l hl => hlt l (List.mem_cons_of_mem _ hl)) hn.2

/-- The boxes with a value are those of the chain and those that had one. -/
theorem isSome_lookup_memoize {chain : List (BoxId × Au)} {memo : List (Option Au)}
    (hlt : ∀ link ∈ chain, link.1.index < memo.length) (hn : (chain.map Prod.fst).Nodup) (id : BoxId) :
    (lookup (memoizeSuffixCollapse chain memo) id).isSome ↔ id ∈ chain.map Prod.fst ∨ (lookup memo id).isSome := by
  by_cases hin : id ∈ chain.map Prod.fst
  · obtain ⟨link, hlink, rfl⟩ := List.mem_map.1 hin
    obtain ⟨before, after, rfl⟩ := List.append_of_mem hlink
    simp only [lookup_memoize hlt hn, Option.isSome_some, hin, true_or]
  · simp only [lookup_memoize_of_not_mem hlt hin, hin, false_or]

end Block

end ChromeLight
