import Mathlib.Data.PFun
import Mathlib.Logic.Relation
import Mathlib.Order.WellFounded

/-!
# While loops

A `while` loop is its body: a function that looks at the loop's state and either goes on with a new state or returns. The
loop itself (`loop`) is the partial function the body denotes, undefined where the loop never returns. The rules: what one
iteration preserves holds in every state the loop visits (`Steps.invariant`) and when it returns (`loop_invariant`); a
measure that every iteration decreases makes the loop return (`loop_terminates`), so that it is a function (`iterate`); and
two loops whose iterations stay related return related results (`loop_lockstep`).
-/

namespace While

variable {σ τ ρ ρ' : Type*}

/-- The partial function a loop body denotes: run the body until it returns. -/
def loop (body : σ → σ ⊕ ρ) (s : σ) : Part ρ :=
  PFun.fix (fun s => Part.some (body s).swap) s

/-- The first `n` iterations of a loop: its result when it returns within them. -/
def run (body : σ → σ ⊕ ρ) : Nat → σ → Option ρ
  | 0, _ => none
  | n + 1, s =>
    match body s with
    | .inl s' => run body n s'
    | .inr r => some r

/-- The state after `n` iterations, none where the loop returns before. -/
def after (body : σ → σ ⊕ ρ) : Nat → σ → Option σ
  | 0, s => some s
  | n + 1, s =>
    match body s with
    | .inl s' => after body n s'
    | .inr _ => none

/-- One iteration that goes on. -/
def Step (body : σ → σ ⊕ ρ) (s s' : σ) : Prop := body s = .inl s'

/-- Any number of iterations. -/
def Steps (body : σ → σ ⊕ ρ) : σ → σ → Prop := Relation.ReflTransGen (Step body)

/-- The states a loop is in at the start of its first `n` iterations, in order. -/
def trace (body : σ → σ ⊕ ρ) : Nat → σ → List σ
  | 0, _ => []
  | n + 1, s =>
    match body s with
    | .inl s' => s :: trace body n s'
    | .inr _ => [s]

/-- What a loop returns when an iteration comes to that. -/
def resume (body : σ → σ ⊕ ρ) : σ ⊕ ρ → Part ρ
  | .inl s => loop body s
  | .inr r => .some r

variable {body : σ → σ ⊕ ρ} {s s' s'' : σ} {r : ρ}

/-! ## Iterations and results -/

theorem loop_inl {t : σ} (h : body s = .inl t) : loop body s = loop body t := by
  refine PFun.fix_fwd_eq ?_
  rw [h]
  exact Part.mem_some _

theorem loop_inr (h : body s = .inr r) : loop body s = .some r := by
  refine Part.eq_some_iff.2 (PFun.fix_stop ?_)
  rw [h]
  exact Part.mem_some _

theorem loop_eq_resume (body : σ → σ ⊕ ρ) (s : σ) : loop body s = resume body (body s) := by
  cases hb : body s with
  | inl t => exact loop_inl hb
  | inr r => exact loop_inr hb

theorem Steps.refl (s : σ) : Steps body s s := Relation.ReflTransGen.refl

theorem Steps.trans (h : Steps body s s') (h' : Steps body s' s'') : Steps body s s'' :=
  Relation.ReflTransGen.trans h h'

theorem Steps.head {t : σ} (h : body s = .inl t) (h' : Steps body t s') : Steps body s s' :=
  Relation.ReflTransGen.head h h'

theorem Steps.one (h : body s = .inl s') : Steps body s s' :=
  Relation.ReflTransGen.single h

/-- Iterations do not change what a loop returns. -/
theorem Steps.loop_eq (h : Steps body s s') : loop body s = loop body s' := by
  induction h with
  | refl => rfl
  | tail _ hb ih => exact ih.trans (loop_inl hb)

theorem Steps.of_after {n : Nat} (h : after body n s = some s') : Steps body s s' := by
  induction n generalizing s with
  | zero =>
    obtain rfl := Option.some.inj h
    exact Steps.refl s
  | succ n ih =>
    simp only [after] at h
    cases hb : body s with
    | inl t =>
      rw [hb] at h
      exact Steps.head hb (ih h)
    | inr r =>
      rw [hb] at h
      cases h

/-- A loop that returns within `n` iterations returns. -/
theorem loop_of_run {n : Nat} (h : run body n s = some r) : loop body s = .some r := by
  induction n generalizing s with
  | zero => simp [run] at h
  | succ n ih =>
    simp only [run] at h
    cases hb : body s with
    | inl s' =>
      rw [hb] at h
      rw [loop_inl hb]
      exact ih h
    | inr r' =>
      rw [hb] at h
      rw [loop_inr hb, Option.some.inj h]

/-- A loop returns exactly when some number of iterations reaches a state whose iteration returns. -/
theorem loop_eq_some_iff : loop body s = .some r ↔ ∃ s', Steps body s s' ∧ body s' = .inr r := by
  constructor
  · intro h
    refine PFun.fixInduction' (C := fun s => ∃ s', Steps body s s' ∧ body s' = .inr r) (Part.eq_some_iff.1 h) ?_ ?_
    · intro t ht
      exact ⟨t, Steps.refl t, by rw [← Sum.swap_swap (body t), ← Part.mem_some_iff.1 ht]; rfl⟩
    · rintro t t' - ht ⟨s', hs, hr⟩
      exact ⟨s', Steps.head (by rw [← Sum.swap_swap (body t), ← Part.mem_some_iff.1 ht]; rfl) hs, hr⟩
  · rintro ⟨s', hs, hr⟩
    rw [hs.loop_eq, loop_inr hr]

/-- A loop that returns does so within some number of iterations. -/
theorem exists_run (h : loop body s = .some r) : ∃ n, run body n s = some r := by
  obtain ⟨s', hs, hr⟩ := loop_eq_some_iff.1 h
  clear h
  induction hs using Relation.ReflTransGen.head_induction_on with
  | refl => exact ⟨1, by rw [run, hr]⟩
  | @head s t hb _ ih =>
    obtain ⟨n, hn⟩ := ih
    have hrun : run body (n + 1) s = run body n t := by rw [run, show body s = .inl t from hb]
    exact ⟨n + 1, hrun.trans hn⟩

/-- What every iteration preserves holds in every state the loop visits. -/
theorem Steps.invariant {I : σ → Prop} (hI : ∀ s s', I s → body s = .inl s' → I s') (h : Steps body s s') (hs : I s) :
    I s' := by
  induction h with
  | refl => exact hs
  | tail _ hb ih => exact hI _ _ ih hb

/-- What every iteration preserves holds in the state from which the loop returns. -/
theorem loop_invariant {I : σ → Prop} (hI : ∀ s s', I s → body s = .inl s' → I s') (hs : I s)
    (h : loop body s = .some r) : ∃ s', Steps body s s' ∧ I s' ∧ body s' = .inr r := by
  obtain ⟨s', h1, h2⟩ := loop_eq_some_iff.1 h
  exact ⟨s', h1, h1.invariant hI hs, h2⟩

/-- What every iteration preserves of its state and of all that the iterations before it have left holds at the end, of what
all but the last have left. -/
theorem run_collect {α : Type*} {emit : σ → List α} {I : σ → List α → Prop}
    (hI : ∀ s s' before, I s before → body s = .inl s' → I s' (before ++ emit s)) {n : Nat} {before : List α}
    (hs : I s before) (h : run body n s = some r) :
    ∃ s' left, I s' left ∧ body s' = .inr r ∧ before ++ (trace body n s).flatMap emit = left ++ emit s' := by
  induction n generalizing s before with
  | zero => simp [run] at h
  | succ n ih =>
    simp only [run] at h
    simp only [trace]
    cases hb : body s with
    | inl t =>
      rw [hb] at h
      obtain ⟨s', left, h1, h2, h3⟩ := ih (hI s t before hs hb) h
      exact ⟨s', left, h1, h2, by rw [List.flatMap_cons, ← List.append_assoc, h3]⟩
    | inr r' =>
      rw [hb] at h
      obtain rfl := Option.some.inj h
      exact ⟨s, before, hs, hb, by rw [List.flatMap_cons, List.flatMap_nil, List.append_nil]⟩

/-- A loop that keeps an invariant and decreases a measure on it returns. -/
theorem loop_terminates {α : Type*} {lt : α → α → Prop} (wf : WellFounded lt) {I : σ → Prop} (m : σ → α)
    (hI : ∀ s s', I s → body s = .inl s' → I s' ∧ lt (m s') (m s)) (hs : I s) : ∃ r, loop body s = .some r := by
  induction hm : m s using wf.induction generalizing s with
  | _ a ih =>
    cases hb : body s with
    | inl s' =>
      obtain ⟨hi, hlt⟩ := hI s s' hs hb
      obtain ⟨r, hr⟩ := ih (m s') (hm ▸ hlt) hi rfl
      exact ⟨r, (loop_inl hb).trans hr⟩
    | inr r => exact ⟨r, loop_inr hb⟩

/-- The function a loop denotes whose iterations decrease a number. -/
def iterate (body : σ → σ ⊕ ρ) (m : σ → Nat) (h : ∀ s s', body s = .inl s' → m s' < m s) (s : σ) : ρ :=
  match _hb : body s with
  | .inl s' => iterate body m h s'
  | .inr r => r
termination_by m s
decreasing_by exact h s s' ‹_›

section

variable {m : σ → Nat} {h : ∀ s s', body s = .inl s' → m s' < m s}

/-- What every iteration preserves holds when the loop returns. -/
theorem iterate_invariant (h : ∀ s s', body s = .inl s' → m s' < m s) {I : σ → Prop} {Q : ρ → Prop}
    (hI : ∀ s s', I s → body s = .inl s' → I s') (hQ : ∀ s r, I s → body s = .inr r → Q r) {s : σ} (hs : I s) :
    Q (iterate body m h s) := by
  fun_induction iterate body m h s with
  | case1 s s' hb ih => exact ih (hI s s' hs hb)
  | case2 s r hb => exact hQ s r hs hb

end

/-- Two loops whose iterations stay related, and return together with related results, return related results. -/
theorem loop_lockstep (body' : τ → τ ⊕ ρ') {R : σ → τ → Prop} {Q : ρ → ρ' → Prop}
    (hl : ∀ s t s', R s t → body s = .inl s' → ∃ t', body' t = .inl t' ∧ R s' t')
    (hr : ∀ s t r, R s t → body s = .inr r → ∃ r', body' t = .inr r' ∧ Q r r') {t : τ} (h : R s t)
    (hs : loop body s = .some r) : ∃ r', loop body' t = .some r' ∧ Q r r' := by
  obtain ⟨s', h1, h2⟩ := loop_eq_some_iff.1 hs
  have key : ∃ t', Steps body' t t' ∧ R s' t' := by
    clear h2 hs
    induction h1 with
    | refl => exact ⟨t, Steps.refl t, h⟩
    | tail _ hb ih =>
      obtain ⟨t', ht, hR⟩ := ih
      obtain ⟨t'', hb', hR'⟩ := hl _ _ _ hR hb
      exact ⟨t'', ht.trans (Steps.one hb'), hR'⟩
  obtain ⟨t', ht, hR⟩ := key
  obtain ⟨r', hb', hQ⟩ := hr _ _ _ hR h2
  exact ⟨r', loop_eq_some_iff.2 ⟨t', ht, hb'⟩, hQ⟩

/-- Of two loops, one returns what the other does if its iterations are the same wherever the other is going to return that. -/
theorem loop_agree (body' : σ → σ ⊕ ρ) (h : ∀ s, loop body s = .some r → body' s = body s) (hs : loop body s = .some r) :
    loop body' s = .some r := by
  obtain ⟨s', hsteps, hreturn⟩ := loop_eq_some_iff.1 hs
  induction hsteps using Relation.ReflTransGen.head_induction_on with
  | refl => exact loop_inr ((h _ hs).trans hreturn)
  | head hstep _ ih =>
    have hnext := (loop_inl hstep).symm.trans hs
    exact (loop_inl ((h _ hs).trans hstep)).trans (ih hnext)

end While
