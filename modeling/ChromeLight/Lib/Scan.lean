import ChromeLight.Lib.While
import Mathlib.Data.List.Basic

/-!
# Scanning a list for a position

`find stop xs pos` is the loop that looks at one element after the other, from a position on, until one is where it stops; it
is none at the end of the list. It is the least such position (`find_eq_some_iff`), and what a `while` loop over the positions
comes to (`loop_find`).
-/

namespace Scan

variable {α : Type*} {stop : Nat → α → Bool} {xs : List α} {pos q : Nat} {a : α}

theorem lt_of_get (h : xs[pos]? = some a) : pos < xs.length := (List.getElem?_eq_some_iff.1 h).1

/-- The first position from one on at whose element to stop. -/
def find (stop : Nat → α → Bool) (xs : List α) (pos : Nat) : Option Nat :=
  match h : xs[pos]? with
  | none => none
  | some a => if stop pos a then some pos else find stop xs (pos + 1)
termination_by xs.length - pos
decreasing_by
  have := lt_of_get h
  omega

/-- The position found is the least at which to stop. -/
theorem find_eq_some_iff : find stop xs pos = some q ↔
    pos ≤ q ∧ (∃ a, xs[q]? = some a ∧ stop q a = true) ∧ ∀ i, pos ≤ i → i < q → ∀ a, xs[i]? = some a → stop i a = false := by
  fun_induction find stop xs pos with
  | case1 pos h =>
    refine ⟨nofun, ?_⟩
    rintro ⟨hle, ⟨a, ha, -⟩, -⟩
    have h1 := lt_of_get ha
    have h2 := List.getElem?_eq_none_iff.1 h
    omega
  | case2 pos a h hs =>
    constructor
    · intro he
      obtain rfl := Option.some.inj he
      exact ⟨Nat.le_refl _, ⟨a, h, hs⟩, fun i h1 h2 => by omega⟩
    · rintro ⟨hle, -, hleast⟩
      rcases Nat.lt_or_ge pos q with hlt | hge
      · have := hleast pos (Nat.le_refl _) hlt a h
        rw [hs] at this
        cases this
      · rw [Nat.le_antisymm hle hge]
  | case3 pos a h hs ih =>
    rw [ih]
    constructor
    · rintro ⟨hle, hq, hleast⟩
      refine ⟨by omega, hq, ?_⟩
      intro i h1 h2 b hb
      rcases Nat.eq_or_lt_of_le h1 with rfl | h1
      · obtain rfl := Option.some.inj (h.symm.trans hb)
        simpa using hs
      · exact hleast i h1 h2 b hb
    · rintro ⟨hle, ⟨b, hb, hsb⟩, hleast⟩
      refine ⟨?_, ⟨b, hb, hsb⟩, fun i h1 => hleast i (by omega)⟩
      rcases Nat.eq_or_lt_of_le hle with rfl | hlt
      · obtain rfl := Option.some.inj (h.symm.trans hb)
        exact absurd hsb hs
      · exact hlt

/-- A loop that goes on with the next position unless it is to stop comes to what follows the position found, or the end. -/
theorem loop_find {σ ρ : Type*} {body : σ → σ ⊕ ρ} (state : Nat → σ) (next : Nat → σ ⊕ ρ) {last : σ ⊕ ρ}
    (hlast : ∀ pos, xs[pos]? = none → body (state pos) = last)
    (hnext : ∀ pos a, xs[pos]? = some a → body (state pos) = if stop pos a then next pos else .inl (state (pos + 1)))
    (pos : Nat) : While.loop body (state pos) = While.resume body ((find stop xs pos).elim last next) := by
  fun_induction find stop xs pos with
  | case1 pos h => rw [While.loop_eq_resume, hlast pos h, Option.elim_none]
  | case2 pos a h hs => rw [While.loop_eq_resume, hnext pos a h, if_pos hs, Option.elim_some]
  | case3 pos a h hs ih =>
    rw [While.loop_eq_resume, hnext pos a h, if_neg hs]
    exact ih

/-- The elements up to the position found. -/
theorem takeWhile_eq_take_find (stop : α → Bool) (xs : List α) (pos : Nat) :
    (xs.drop pos).takeWhile (fun a => !stop a)
      = (xs.drop pos).take ((find (fun _ => stop) xs pos).getD xs.length - pos) := by
  fun_induction find (fun _ => stop) xs pos with
  | case1 pos h => rw [List.drop_eq_nil_of_le (List.getElem?_eq_none_iff.1 h), List.takeWhile_nil, List.take_nil]
  | case2 pos a h hs =>
    obtain ⟨hlt, rfl⟩ := List.getElem?_eq_some_iff.1 h
    rw [List.drop_eq_getElem_cons hlt, List.takeWhile_cons_of_neg (by simpa using hs), Option.getD_some, Nat.sub_self,
      List.take_zero]
  | case3 pos a h hs ih =>
    obtain ⟨hlt, rfl⟩ := List.getElem?_eq_some_iff.1 h
    have hle : pos + 1 ≤ (find (fun _ => stop) xs (pos + 1)).getD xs.length := by
      cases hf : find (fun _ => stop) xs (pos + 1) with
      | none => exact hlt
      | some q => exact (find_eq_some_iff.1 hf).1
    obtain ⟨n, hn⟩ := Nat.exists_eq_add_of_le hle
    rw [hn, Nat.add_sub_cancel_left] at ih
    rw [List.drop_eq_getElem_cons hlt, List.takeWhile_cons_of_pos (by simpa using hs), ih, hn,
      show pos + 1 + n - pos = n + 1 by omega, List.take_succ_cons]

end Scan
