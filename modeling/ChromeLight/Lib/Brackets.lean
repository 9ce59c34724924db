import Mathlib.Combinatorics.Enumerative.DyckWord

/-!
# Bracket words

Words of opening (`U`) and closing (`D`) brackets, built from the left: `Opens w n` says that no prefix of `w` closes more
than it opened, and that `n` brackets are open at its end. A word is balanced when it is a Dyck word, that is when none is.
-/

namespace Brackets

open DyckStep

/-- No prefix closes more than it opened, and `n` brackets are left open. -/
structure Opens (w : List DyckStep) (n : Nat) : Prop where
  prefixes : ∀ p, p <+: w → p.count D ≤ p.count U
  left : w.count U = w.count D + n

/-- A word that closes exactly what it opens. -/
def Balanced (w : List DyckStep) : Prop := ∃ d : DyckWord, d.toList = w

variable {w : List DyckStep} {n : Nat}

theorem Opens.nil : Opens [] 0 := by
  refine ⟨fun p hp => ?_, rfl⟩
  rw [List.prefix_nil.1 hp]
  exact Nat.le_refl _

theorem Opens.opening (h : Opens w n) : Opens (w ++ [U]) (n + 1) := by
  have hleft := h.left
  have hup : (w ++ [U]).count U = w.count U + 1 := by simp
  have hdown : (w ++ [U]).count D = w.count D := by simp
  refine ⟨fun p hp => ?_, by omega⟩
  rcases List.prefix_concat_iff.1 hp with rfl | hp
  · omega
  · exact h.prefixes p hp

theorem Opens.closing (h : Opens w (n + 1)) : Opens (w ++ [D]) n := by
  have hleft := h.left
  have hup : (w ++ [D]).count U = w.count U := by simp
  have hdown : (w ++ [D]).count D = w.count D + 1 := by simp
  refine ⟨fun p hp => ?_, by omega⟩
  rcases List.prefix_concat_iff.1 hp with rfl | hp
  · omega
  · exact h.prefixes p hp

theorem Opens.balanced (h : Opens w 0) : Balanced w :=
  ⟨⟨w, h.left, fun i => h.prefixes _ (List.take_prefix i w)⟩, rfl⟩

/-- Closing every bracket left open balances the word. -/
theorem Opens.close_all (h : Opens w n) : Balanced (w ++ List.replicate n D) := by
  induction n generalizing w with
  | zero => simpa using h.balanced
  | succ n ih =>
    have := ih h.closing
    rwa [List.append_assoc, List.singleton_append, ← List.replicate_succ] at this

end Brackets
