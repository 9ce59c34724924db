import Mathlib.Data.List.SplitBy

/-!
# Dropping runs

Splitting a list into its maximal runs of equal level and leaving out the runs whose every member may be dropped
(`Runs.drop`). The loop `Runs.loop` does it in one pass, ending a run of the lower level where a member of the upper one comes.
-/

namespace Runs

variable {α : Type*}

/-- Leave out the maximal runs of equal level all of whose members may be dropped. -/
def drop (upper : α → Bool) (may : α → Bool) (l : List α) : List α :=
  ((l.splitBy fun a b => upper a == upper b).filter fun run => !run.all may).flatten

/-- What is left of a run at its end. -/
def endRun (may : α → Bool) (run : List α) : List α := if run.all may then [] else run

/-- One pass, with the run collected so far. -/
def loop (upper : α → Bool) (may : α → Bool) : List α → List α → List α
  | run, [] => endRun may run
  | run, a :: l => if upper a then endRun may run ++ a :: loop upper may [] l else loop upper may (run ++ [a]) l

variable {upper may : α → Bool}

/-- A list of one level is one run. -/
theorem drop_of_level {level : Bool} {run : List α} (h : ∀ a ∈ run, upper a = level) :
    drop upper may run = endRun may run := by
  unfold drop endRun
  cases run with
  | nil => simp
  | cons a run =>
    have hchain : List.IsChain (fun a b => (upper a == upper b) = true) (a :: run) :=
      List.Pairwise.isChain (List.pairwise_of_forall_mem_list fun x hx y hy => by simp [h x hx, h y hy])
    rw [List.splitBy_of_isChain (by simp) hchain]
    cases hall : (a :: run).all may <;> simp [hall]

/-- A change of level ends a run. -/
theorem drop_append {level : Bool} {run l : List α} {a : α} (h : ∀ b ∈ run, upper b = level) (ha : upper a ≠ level) :
    drop upper may (run ++ a :: l) = endRun may run ++ drop upper may (a :: l) := by
  rw [← drop_of_level h]
  unfold drop
  rw [List.splitBy_append, List.filter_append, List.flatten_append]
  intro x hx y hy
  obtain rfl : a = y := by simpa using hy
  simp [h x (List.mem_of_getLast? hx), Ne.symm ha]

/-- A run one of whose members may not be dropped is kept. -/
theorem endRun_of_keep {run : List α} (h : ∀ a ∈ run, may a = false) : endRun may run = run := by
  unfold endRun
  cases run with
  | nil => simp
  | cons a run => simp [h a List.mem_cons_self]

/-- The one pass drops the runs that may be dropped, provided that none of the upper level may. The run collected so far is
of the lower level; in between, one of the upper level has been passed on. -/
theorem loop_eq_drop (l : List α) (hmay : ∀ a ∈ l, upper a = true → may a = false) :
    (∀ run, (∀ a ∈ run, upper a = false) → loop upper may run l = drop upper may (run ++ l)) ∧
      ∀ run, (∀ a ∈ run, upper a = true ∧ may a = false) → run ++ loop upper may [] l = drop upper may (run ++ l) := by
  induction l with
  | nil =>
    refine ⟨fun run h => ?_, fun run h => ?_⟩
    · rw [List.append_nil, drop_of_level h, loop]
    · rw [List.append_nil, drop_of_level (fun a ha => (h a ha).1), endRun_of_keep (fun a ha => (h a ha).2), loop]
      simp [endRun]
  | cons a l ih =>
    obtain ⟨ihl, ihu⟩ := ih (fun b hb => hmay b (List.mem_cons_of_mem _ hb))
    cases ha : upper a with
    | true =>
      have hsingle : ∀ b ∈ [a], upper b = true ∧ may b = false := by
        intro b hb
        obtain rfl := List.mem_singleton.1 hb
        exact ⟨ha, hmay b List.mem_cons_self ha⟩
      refine ⟨fun run h => ?_, fun run h => ?_⟩
      · rw [drop_append h (by simp [ha]), loop, if_pos ha]
        exact congrArg _ (ihu [a] hsingle)
      · rw [loop, if_pos ha]
        have := ihu (run ++ [a]) (by
          intro b hb
          rcases List.mem_append.1 hb with hb | hb
          · exact h b hb
          · exact hsingle b hb)
        simpa [endRun] using this
    | false =>
      have hsingle : ∀ b ∈ [a], upper b = false := by simp [ha]
      refine ⟨fun run h => ?_, fun run h => ?_⟩
      · have := ihl (run ++ [a]) (by
          intro b hb
          rcases List.mem_append.1 hb with hb | hb
          · exact h b hb
          · exact hsingle b hb)
        rw [loop, if_neg (by simp [ha]), this, List.append_assoc, List.singleton_append]
      · rw [drop_append (fun b hb => (h b hb).1) (by simp [ha]), endRun_of_keep (fun b hb => (h b hb).2), loop,
          if_neg (by simp [ha])]
        exact congrArg _ (ihl [a] hsingle)

/-- What is left of a list comes in its order. -/
theorem drop_sublist (l : List α) : (drop upper may l).Sublist l := by
  conv_rhs => rw [← List.flatten_splitBy (fun a b => upper a == upper b) l]
  exact List.filter_sublist.flatten

/-- A member that may not be dropped is left. -/
theorem mem_drop {l : List α} {a : α} (h : a ∈ l) (ha : may a = false) : a ∈ drop upper may l := by
  rw [← List.flatten_splitBy (fun a b => upper a == upper b) l] at h
  obtain ⟨run, hrun, har⟩ := List.mem_flatten.1 h
  refine List.mem_flatten.2 ⟨run, List.mem_filter.2 ⟨hrun, ?_⟩, har⟩
  rw [Bool.not_eq_true']
  exact List.all_eq_false.2 ⟨a, har, by simp [ha]⟩

end Runs
