import Mathlib.Data.List.Chain

/-!
# Maximal stretches of equal keys

Cutting a list into its maximal stretches of elements with one key (`Stretches.Cuts`), and the two moves a single pass makes:
it begins a stretch where the key changes, and extends the last one where it does not.
-/

namespace Stretches

variable {α β : Type*}

/-- The groups, each with its key, are the maximal stretches of a list whose elements have one key. -/
structure Cuts (key : α → β) (l : List α) (groups : List (β × List α)) : Prop where
  flatten : groups.flatMap (·.2) = l
  uniform : ∀ g ∈ groups, ∀ a ∈ g.2, key a = g.1
  nonempty : ∀ g ∈ groups, g.2 ≠ []
  maximal : (groups.map (·.1)).IsChain (· ≠ ·)

variable {key : α → β} {l : List α} {groups : List (β × List α)} {k : β} {run : List α}

theorem Cuts.nil (key : α → β) : Cuts key [] [] where
  flatten := rfl
  uniform := by simp
  nonempty := by simp
  maximal := List.isChain_nil

/-- A stretch with another key than the last one ends the cut. -/
theorem Cuts.concat (h : Cuts key l groups) (hrun : run ≠ []) (hkey : ∀ a ∈ run, key a = k)
    (hlast : ∀ g ∈ groups.getLast?, g.1 ≠ k) : Cuts key (l ++ run) (groups ++ [(k, run)]) where
  flatten := by simp [h.flatten]
  uniform g hg := by
    rcases List.mem_append.1 hg with hg | hg
    · exact h.uniform g hg
    · rw [List.mem_singleton.1 hg]
      exact hkey
  nonempty g hg := by
    rcases List.mem_append.1 hg with hg | hg
    · exact h.nonempty g hg
    · rw [List.mem_singleton.1 hg]
      exact hrun
  maximal := by
    rw [List.map_append, List.isChain_append]
    refine ⟨h.maximal, List.isChain_singleton _, ?_⟩
    intro x hx y hy
    rw [List.getLast?_map] at hx
    obtain ⟨g, hg, rfl⟩ := Option.map_eq_some_iff.1 hx
    obtain rfl : k = y := by simpa using hy
    exact hlast g hg

/-- The last stretch takes one more element with its key. -/
theorem Cuts.extend {a : α} (h : Cuts key l (groups ++ [(k, run)])) (ha : key a = k) :
    Cuts key (l ++ [a]) (groups ++ [(k, run ++ [a])]) where
  flatten := by
    rw [← h.flatten]
    simp
  uniform g hg := by
    rcases List.mem_append.1 hg with hg | hg
    · exact h.uniform g (List.mem_append_left _ hg)
    · obtain rfl := List.mem_singleton.1 hg
      intro b hb
      rcases List.mem_append.1 hb with hb | hb
      · exact h.uniform (k, run) (List.mem_append_right _ (List.mem_singleton_self _)) b hb
      · rw [List.mem_singleton.1 hb]
        exact ha
  nonempty g hg := by
    rcases List.mem_append.1 hg with hg | hg
    · exact h.nonempty g (List.mem_append_left _ hg)
    · rw [List.mem_singleton.1 hg]
      simp
  maximal := by
    have hmap : (groups ++ [(k, run ++ [a])]).map (·.1) = (groups ++ [(k, run)]).map (·.1) := by simp
    rw [hmap]
    exact h.maximal

end Stretches
