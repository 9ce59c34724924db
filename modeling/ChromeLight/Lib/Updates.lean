import Mathlib.Data.List.ProdSigma
import Mathlib.Data.List.Nodup

/-!
# Updates of single cells

Cells are updated one after the other, and where each update goes is known from its key alone: to no cell, or to one cell with a
function to apply there. If no two updates go to the same cell, a cell that is updated is updated once, from what it held at
the start (`getElem?_updateAll_of_mem`), and every other cell keeps what it held (`getElem?_updateAll_of_forall`).
-/

namespace Updates

variable {α κ : Type*} {target : κ → Option (Nat × (α → α))} {cells : List α} {keys : List κ} {i : Nat} {f : α → α}

/-- Apply an update, if there is one. -/
def update (cells : List α) : Option (Nat × (α → α)) → List α
  | none => cells
  | some (i, f) => cells.modify i f

/-- Apply the updates of some keys, one after the other. -/
def updateAll (target : κ → Option (Nat × (α → α))) (cells : List α) (keys : List κ) : List α :=
  keys.foldl (fun cells key => update cells (target key)) cells

/-- No two keys update the same cell. -/
def Separate (target : κ → Option (Nat × (α → α))) (keys : List κ) : Prop :=
  keys.Pairwise fun j k => ∀ i f g, target j = some (i, f) → target k ≠ some (i, g)

theorem getElem?_update_of_ne {u : Option (Nat × (α → α))} (h : ∀ f, u ≠ some (i, f)) : (update cells u)[i]? = cells[i]? := by
  match u with
  | none => rfl
  | some (j, f) =>
    refine List.getElem?_modify_ne f cells ?_
    rintro rfl
    exact h f rfl

/-- A cell that no key updates is kept. -/
theorem getElem?_updateAll_of_forall (cells : List α) (h : ∀ key ∈ keys, ∀ f, target key ≠ some (i, f)) :
    (updateAll target cells keys)[i]? = cells[i]? := by
  induction keys generalizing cells with
  | nil => rfl
  | cons key keys ih =>
    have hrest := ih (update cells (target key)) fun k hk => h k (List.mem_cons_of_mem _ hk)
    exact hrest.trans (getElem?_update_of_ne (h key List.mem_cons_self))

/-- A cell that a key updates is updated once. -/
theorem getElem?_updateAll_of_mem (hsep : Separate target keys) {key : κ} (hkey : key ∈ keys) (h : target key = some (i, f)) :
    (updateAll target cells keys)[i]? = cells[i]?.map f := by
  induction keys generalizing cells with
  | nil => exact absurd hkey List.not_mem_nil
  | cons k keys ih =>
    obtain ⟨hhead, hrest⟩ := List.pairwise_cons.1 hsep
    rcases List.mem_cons.1 hkey with rfl | hkey
    · have hkept := getElem?_updateAll_of_forall (update cells (target key)) fun k hk g => hhead k hk i f g h
      refine hkept.trans ?_
      rw [h]
      exact List.getElem?_modify_eq f i cells
    · have hother : ∀ g, target k ≠ some (i, g) := fun g hg => hhead key hkey i g f hg h
      refine (ih hrest hkey).trans ?_
      rw [getElem?_update_of_ne hother]

/-- Distinct keys are separate if the cell tells the key. -/
theorem separate_of_nodup (hnd : keys.Nodup)
    (h : ∀ j ∈ keys, ∀ k ∈ keys, ∀ i f g, target j = some (i, f) → target k = some (i, g) → j = k) : Separate target keys := by
  refine hnd.imp_of_mem ?_
  intro j k hj hk hne i f g hf hg
  exact hne (h j hj k hk i f g hf hg)

/-- A loop in a loop makes the updates of the pairs. -/
theorem foldl_foldl_eq_updateAll {ι : Type*} (target : ι × κ → Option (Nat × (α → α))) (cells : List α) (rows : List ι)
    (cols : List κ) :
    rows.foldl (fun cells row => updateAll (fun col => target (row, col)) cells cols) cells =
      updateAll target cells (rows ×ˢ cols) := by
  induction rows generalizing cells with
  | nil => rfl
  | cons row rows ih =>
    rw [List.foldl_cons, ih, List.product_cons]
    unfold updateAll
    rw [List.foldl_append, List.foldl_map]

end Updates
