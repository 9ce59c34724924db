import Mathlib.Data.List.SplitBy
import Mathlib.Data.List.DropRight

/-!
# Collapsing runs

Elements of one kind (`p`) in a list are collapsed: every maximal run of them becomes one separator, and the one at the start
is dropped (`collapse`). Collapsing is not a homomorphism of lists, but what a list adds depends on the part before it only
through one bit: whether that part leaves a run open, being empty or ending in one (`collapse_append`). So a list may be
collapsed piece by piece with that bit threaded through the pieces.
-/

namespace Collapse

variable {α : Type*} (p : α → Bool) (sep : α)

/-- Every maximal run of elements of the kind becomes one separator. -/
def squeeze (l : List α) : List α := (l.splitBy fun a b => p a == p b).flatMap fun run => if run.all p then [sep] else run

/-- Every maximal run becomes one separator, and the one at the start is dropped. -/
def collapse (l : List α) : List α := squeeze p sep (l.dropWhile p)

/-- Whether a run at the start of what follows is part of one that is dropped or has its separator already. -/
def isOpen (l : List α) : Bool := l.getLast?.all p

/-- What a list adds to the collapse of what comes before it. -/
def continued (suppress : Bool) (l : List α) : List α := squeeze p sep (if suppress then l.dropWhile p else l)

variable {p sep}

/-! ## One element after the other -/

@[simp] theorem squeeze_nil : squeeze p sep [] = [] := rfl

/-- A nonempty list all of one level that is followed by the other level is one run. -/
theorem squeeze_run {level : Bool} {run l : List α} (hne : run ≠ []) (h : ∀ a ∈ run, p a = level)
    (hl : ∀ a ∈ l.head?, p a ≠ level) :
    squeeze p sep (run ++ l) = (if level then [sep] else run) ++ squeeze p sep l := by
  have hchain : List.IsChain (fun a b => (p a == p b) = true) run :=
    List.Pairwise.isChain (List.pairwise_of_forall_mem_list fun x hx y hy => by simp [h x hx, h y hy])
  have hall : run.all p = level := by
    cases level with
    | true => exact List.all_eq_true.2 h
    | false =>
      obtain ⟨a, run, rfl⟩ := List.exists_cons_of_ne_nil hne
      simp [h a List.mem_cons_self]
  unfold squeeze
  rw [List.splitBy_append, List.splitBy_of_isChain hne hchain, List.flatMap_append]
  · rw [List.flatMap_singleton, hall]
  · intro x hx y hy
    simp [h x (List.mem_of_getLast? hx), Ne.symm (hl y hy)]

theorem squeeze_cons_of_pos {a : α} (ha : p a = true) (l : List α) :
    squeeze p sep (a :: l) = sep :: squeeze p sep (l.dropWhile p) := by
  have hsplit : a :: l = (a :: l.takeWhile p) ++ l.dropWhile p := by simp
  have hrun : ∀ x ∈ a :: l.takeWhile p, p x = true := by
    intro x hx
    rcases List.mem_cons.1 hx with rfl | hx
    · exact ha
    · exact List.mem_takeWhile_imp hx
  rw [hsplit, squeeze_run (List.cons_ne_nil _ _) hrun]
  · rfl
  · intro x hx hpx
    have := List.head?_dropWhile_not p l
    rw [Option.mem_def.1 hx] at this
    simp [hpx] at this

theorem squeeze_cons_of_neg {a : α} (ha : p a = false) (l : List α) :
    squeeze p sep (a :: l) = a :: squeeze p sep l := by
  -- the run of `a` and the elements after it on its level
  have hrun : ∀ x ∈ l.takeWhile (fun x => !p x), p x = false := fun x hx => by simpa using List.mem_takeWhile_imp hx
  have hrest : ∀ x ∈ (l.dropWhile fun x => !p x).head?, p x ≠ false := by
    intro x hx hpx
    have := List.head?_dropWhile_not (fun x => !p x) l
    rw [Option.mem_def.1 hx] at this
    simp [hpx] at this
  have hcons : squeeze p sep (a :: l)
      = (a :: l.takeWhile fun x => !p x) ++ squeeze p sep (l.dropWhile fun x => !p x) := by
    have hsplit : a :: l = (a :: l.takeWhile fun x => !p x) ++ l.dropWhile fun x => !p x := by simp
    rw [hsplit, squeeze_run (List.cons_ne_nil _ _) (List.forall_mem_cons.2 ⟨ha, hrun⟩) hrest]
    rfl
  rw [hcons]
  cases htake : l.takeWhile fun x => !p x with
  | nil =>
    have hl := List.takeWhile_append_dropWhile (p := fun x => !p x) (l := l)
    rw [htake, List.nil_append] at hl
    rw [hl]
    rfl
  | cons b run =>
    have hl := List.takeWhile_append_dropWhile (p := fun x => !p x) (l := l)
    rw [htake] at hl hrun
    conv_rhs => rw [← hl, squeeze_run (List.cons_ne_nil _ _) hrun hrest]
    rfl

/-- Of two neighbours of the kind the first changes nothing. -/
theorem squeeze_cons_cons {a b : α} (ha : p a = true) (hb : p b = true) (l : List α) :
    squeeze p sep (a :: b :: l) = squeeze p sep (b :: l) := by
  rw [squeeze_cons_of_pos ha, List.dropWhile_cons_of_pos hb, squeeze_cons_of_pos hb]

/-- The last element of a run is where its separator stands. -/
theorem squeeze_cons_end {a b : α} (ha : p a = true) (hb : p b = false) (l : List α) :
    squeeze p sep (a :: b :: l) = sep :: squeeze p sep (b :: l) := by
  rw [squeeze_cons_of_pos ha, List.dropWhile_cons_of_neg (by simp [hb])]

/-! ## Piece by piece -/

/-- What a list adds after a nonempty one depends on whether that one ends in a run. -/
theorem squeeze_append {l : List α} (hl : l ≠ []) (m : List α) :
    squeeze p sep (l ++ m) = squeeze p sep l ++ continued p sep (isOpen p l) m := by
  induction l with
  | nil => exact absurd rfl hl
  | cons a l ih =>
    cases l with
    | nil =>
      cases ha : p a with
      | true => simp [squeeze_cons_of_pos ha, isOpen, continued, ha]
      | false => simp [squeeze_cons_of_neg ha, isOpen, continued, ha]
    | cons b l =>
      have hopen : isOpen p (a :: b :: l) = isOpen p (b :: l) := rfl
      have ih := ih (List.cons_ne_nil b l)
      rw [List.cons_append] at ih
      rw [hopen, List.cons_append, List.cons_append]
      cases ha : p a with
      | false => rw [squeeze_cons_of_neg ha, squeeze_cons_of_neg ha, ih, List.cons_append]
      | true =>
        cases hb : p b with
        | true => rw [squeeze_cons_cons ha hb, squeeze_cons_cons ha hb, ih]
        | false => rw [squeeze_cons_end ha hb, squeeze_cons_end ha hb, ih, List.cons_append]

theorem isOpen_dropWhile {l : List α} (hl : l.dropWhile p ≠ []) : isOpen p (l.dropWhile p) = isOpen p l := by
  unfold isOpen
  conv_rhs => rw [← List.takeWhile_append_dropWhile (p := p) (l := l), List.getLast?_append_of_ne_nil _ hl]

/-- What a list adds to the collapse of what comes before it. -/
theorem collapse_append (l m : List α) :
    collapse p sep (l ++ m) = collapse p sep l ++ continued p sep (isOpen p l) m := by
  unfold collapse
  rw [List.dropWhile_append]
  by_cases hl : l.dropWhile p = []
  · have hopen : isOpen p l = true := by
      unfold isOpen
      cases h : l.getLast? with
      | none => rfl
      | some a => exact List.dropWhile_eq_nil_iff.1 hl a (List.mem_of_getLast? h)
    simp [hl, hopen, continued]
  · rw [if_neg (by simpa using hl), squeeze_append hl, isOpen_dropWhile hl]

/-- A list leaves a run open as its last element says, and an empty one as what comes before it does. -/
theorem isOpen_append (l m : List α) : isOpen p (l ++ m) = (m.getLast?.map p).getD (isOpen p l) := by
  unfold isOpen
  rw [List.getLast?_append]
  cases m.getLast? with
  | none => rfl
  | some a => rfl

/-! ## What a collapsed list is -/

/-- The other elements stay, in order. -/
theorem filter_collapse (hsep : p sep = true) (l : List α) :
    (collapse p sep l).filter (fun a => !p a) = l.filter fun a => !p a := by
  have hsqueeze : ∀ l : List α, (squeeze p sep l).filter (fun a => !p a) = l.filter fun a => !p a := by
    intro l
    induction l with
    | nil => rfl
    | cons a l ih =>
      cases ha : p a with
      | false => simp [squeeze_cons_of_neg ha, ha, ih]
      | true =>
        cases l with
        | nil => simp [squeeze_cons_of_pos ha, ha, hsep]
        | cons b l =>
          cases hb : p b with
          | true => rw [squeeze_cons_cons ha hb, ih]; simp [ha]
          | false =>
            rw [squeeze_cons_end ha hb, List.filter_cons_of_neg (by simp [hsep]), ih]
            simp [ha]
  rw [collapse, hsqueeze]
  conv_rhs => rw [← List.takeWhile_append_dropWhile (p := p) (l := l), List.filter_append]
  have : (l.takeWhile p).filter (fun a => !p a) = [] :=
    List.filter_eq_nil_iff.2 fun a ha => by simp [List.mem_takeWhile_imp ha]
  rw [this, List.nil_append]

/-- No two elements of the kind are neighbours. -/
theorem isChain_collapse (l : List α) : (collapse p sep l).IsChain fun a b => ¬(p a = true ∧ p b = true) := by
  unfold collapse
  generalize l.dropWhile p = l
  induction l with
  | nil => exact .nil
  | cons a l ih =>
    cases ha : p a with
    | false =>
      rw [squeeze_cons_of_neg ha]
      exact List.isChain_cons.2 ⟨fun b _ h => by simp [ha] at h, ih⟩
    | true =>
      cases l with
      | nil => simp [squeeze_cons_of_pos ha]
      | cons b l =>
        cases hb : p b with
        | true => rwa [squeeze_cons_cons ha hb]
        | false =>
          rw [squeeze_cons_end ha hb]
          refine List.isChain_cons.2 ⟨fun c hc h => ?_, ih⟩
          rw [squeeze_cons_of_neg hb, List.head?_cons, Option.mem_some] at hc
          simp [← hc, hb] at h

/-- The first element is not of the kind. -/
theorem head?_collapse (l : List α) : ∀ a ∈ (collapse p sep l).head?, p a = false := by
  intro a ha
  unfold collapse at ha
  have hhead := List.head?_dropWhile_not p l
  cases hl : l.dropWhile p with
  | nil => simp [hl] at ha
  | cons b m =>
    have hb : p b = false := by simpa [hl] using hhead
    rw [hl, squeeze_cons_of_neg hb, List.head?_cons, Option.mem_some] at ha
    exact ha ▸ hb

end Collapse
