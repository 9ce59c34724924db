import Mathlib.Data.List.ReduceOption
import Mathlib.Data.Option.Basic

/-!
# Machines that answer calls

A machine answers a call and goes to another state, or it refuses the call. A run makes one call after the other, and is refused
where one of them is. Two machines whose states are related, and stay so, answer every run alike (`run_alike`); one whose calls are
each a call of the other, or none, answers what the other does (`run_filterMap`). What every answered call keeps, of the calls made so
far and the state they left, a run keeps (`run_history`).
-/

namespace Calls

variable {σ τ κ ρ : Type*} {call : σ → κ → Option (ρ × σ)} {call' : τ → κ → Option (ρ × τ)} {s s' : σ} {t : τ}

/-- Make calls one after the other: their answers, and the state they leave. -/
def run (call : σ → κ → Option (ρ × σ)) (s : σ) : List κ → Option (List ρ × σ)
  | [] => some ([], s)
  | k :: ks => (call s k).bind fun (answer, s) => (run call s ks).map fun (answers, s) => (answer :: answers, s)

@[simp] theorem run_nil : run call s [] = some ([], s) := rfl

theorem run_cons (k : κ) (ks : List κ) : run call s (k :: ks) =
    (call s k).bind fun x => (run call x.2 ks).map fun y => (x.1 :: y.1, y.2) := rfl

theorem run_cons_eq_some {k : κ} {ks : List κ} {answers : List ρ} : run call s (k :: ks) = some (answers, s') ↔
    ∃ a s₁ rest, call s k = some (a, s₁) ∧ run call s₁ ks = some (rest, s') ∧ answers = a :: rest := by
  rw [run_cons]
  constructor
  · intro h
    obtain ⟨⟨a, s₁⟩, hcall, hrest⟩ := Option.bind_eq_some_iff.1 h
    obtain ⟨⟨rest, s₂⟩, hrun, heq⟩ := Option.map_eq_some_iff.1 hrest
    obtain ⟨rfl, rfl⟩ := Prod.mk.inj heq
    exact ⟨a, s₁, rest, hcall, hrun, rfl⟩
  · rintro ⟨a, s₁, rest, hcall, hrun, rfl⟩
    rw [hcall, Option.bind_some, hrun, Option.map_some]

/-- Both answer, the same and with related states, or both refuse. -/
def Alike (R : σ → τ → Prop) (x : Option (ρ × σ)) (y : Option (ρ × τ)) : Prop :=
  Option.Rel (fun x y => x.1 = y.1 ∧ R x.2 y.2) x y

namespace Alike

variable {R : σ → τ → Prop}

theorem answered {a : ρ} (h : R s t) : Alike R (some (a, s)) (some (a, t)) := Option.Rel.some ⟨rfl, h⟩

theorem refused : Alike R (none : Option (ρ × σ)) none := Option.Rel.none

theorem answers_eq {x : Option (ρ × σ)} {y : Option (ρ × τ)} (h : Alike R x y) : x.map Prod.fst = y.map Prod.fst := by
  cases h with
  | some h => exact congrArg some h.1
  | none => rfl

/-- A machine that answers has the other one answer the same. -/
theorem exists_of_some {a : ρ} {y : Option (ρ × τ)} (h : Alike R (some (a, s)) y) :
    ∃ t, y = some (a, t) ∧ R s t := by
  cases h with
  | @some _ b h =>
    obtain ⟨rfl, hR⟩ := h
    exact ⟨b.2, rfl, hR⟩

/-- What holds where the second machine goes can be added to the relation. -/
theorem and {I : τ → Prop} {x : Option (ρ × σ)} {y : Option (ρ × τ)} (h : Alike R x y) (hI : ∀ a t, y = some (a, t) → I t) :
    Alike (fun s t => R s t ∧ I t) x y := by
  cases h with
  | none => exact .refused
  | @some a b h => exact Option.Rel.some ⟨h.1, h.2, hI b.1 b.2 rfl⟩

end Alike

/-- Two machines that answer each call alike answer each run alike. -/
theorem run_alike {R : σ → τ → Prop} (h : ∀ s t k, R s t → Alike R (call s k) (call' t k)) (hR : R s t) (ks : List κ) :
    Alike R (run call s ks) (run call' t ks) := by
  induction ks generalizing s t with
  | nil => exact .answered hR
  | cons k ks ih =>
    rw [run_cons, run_cons]
    have hstep := h s t k hR
    generalize call s k = x at hstep ⊢
    generalize call' t k = y at hstep ⊢
    cases hstep with
    | none => exact .refused
    | @some a b hstep =>
      have hrest := ih hstep.2
      rw [Option.bind_some, Option.bind_some]
      generalize run call a.2 ks = z at hrest ⊢
      generalize run call' b.2 ks = w at hrest ⊢
      cases hrest with
      | none => exact .refused
      | some hrest => exact Option.Rel.some ⟨congrArg₂ List.cons hstep.1 hrest.1, hrest.2⟩

/-- A machine whose calls are each a call of another, or none, answers the calls as the other does. -/
theorem run_filterMap {κ' : Type*} {call : σ → κ → Option (Option ρ × σ)} {call' : τ → κ' → Option (ρ × τ)} {f : κ → Option κ'}
    {R : σ → τ → Prop}
    (hsome : ∀ s t k k' a s', R s t → f k = some k' → call s k = some (a, s') → ∃ b t', a = some b ∧ call' t k' = some (b, t') ∧ R s' t')
    (hnone : ∀ s t k a s', R s t → f k = none → call s k = some (a, s') → a = none ∧ R s' t)
    (hR : R s t) {ks : List κ} {answers : List (Option ρ)} (hrun : run call s ks = some (answers, s')) :
    ∃ t', run call' t (ks.filterMap f) = some (answers.reduceOption, t') ∧ R s' t' := by
  induction ks generalizing s t answers with
  | nil =>
    obtain ⟨rfl, rfl⟩ := Prod.mk.inj (Option.some.inj hrun)
    exact ⟨t, rfl, hR⟩
  | cons k ks ih =>
    obtain ⟨a, s₁, rest, hcall, hrest, rfl⟩ := run_cons_eq_some.1 hrun
    cases hk : f k with
    | none =>
      obtain ⟨rfl, hR'⟩ := hnone s t k a s₁ hR hk hcall
      rw [List.filterMap_cons_none hk, List.reduceOption_cons_of_none]
      exact ih hR' hrest
    | some k' =>
      obtain ⟨b, t', rfl, hcall', hR'⟩ := hsome s t k k' a s₁ hR hk hcall
      obtain ⟨t'', hrun', hR''⟩ := ih hR' hrest
      rw [List.filterMap_cons_some hk, List.reduceOption_cons_of_some]
      exact ⟨t'', run_cons_eq_some.2 ⟨b, t', _, hcall', hrun', rfl⟩, hR''⟩

/-- What each answered call keeps, of the calls so far and the state they left, is kept by a run. -/
theorem run_history {I : List κ → σ → Prop} (h : ∀ past s k a s', I past s → call s k = some (a, s') → I (past ++ [k]) s')
    {past ks : List κ} {answers : List ρ} (hI : I past s) (hrun : run call s ks = some (answers, s')) : I (past ++ ks) s' := by
  induction ks generalizing past s answers with
  | nil =>
    obtain ⟨-, rfl⟩ := Prod.mk.inj (Option.some.inj hrun)
    rwa [List.append_nil]
  | cons k ks ih =>
    obtain ⟨a, s₁, rest, hcall, hrest, -⟩ := run_cons_eq_some.1 hrun
    have := ih (h past s k a s₁ hI hcall) hrest
    rwa [List.append_assoc, List.singleton_append] at this

end Calls
