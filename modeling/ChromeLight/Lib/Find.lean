import Mathlib.Data.List.Basic
import Mathlib.Data.List.Infix

/-!
# Finding a list in another

`find pattern text` is the first place of `text` that `pattern` is at: it splits the text around an occurrence, before the end of
which there is no other (`find_eq_some_iff`).
-/

namespace Find

variable {α : Type*} {pattern text : List α}

/-- A pattern is in what there is before the end of an occurrence exactly if it is at an earlier place. -/
theorem isInfix_dropLast_iff (hpattern : pattern ≠ []) (before after : List α) :
    pattern <:+: (before ++ pattern).dropLast ↔ ∃ j, j < before.length ∧ pattern <+: (before ++ pattern ++ after).drop j := by
  have hpos := List.length_pos_iff.2 hpattern
  have hstart : (before ++ pattern).dropLast <+: before ++ pattern ++ after :=
    (List.dropLast_prefix _).trans (List.prefix_append _ _)
  constructor
  · rintro ⟨a, b, hab⟩
    have hlength := congrArg List.length hab
    simp only [List.length_append, List.length_dropLast] at hlength
    refine ⟨a.length, by omega, ?_⟩
    obtain ⟨rest, hrest⟩ := hstart
    rw [← hrest, ← hab, List.append_assoc, List.append_assoc, List.drop_left]
    exact List.prefix_append _ _
  · rintro ⟨j, hj, hat⟩
    -- up to the end of the earlier occurrence, the text is before the end of this one
    have hend : (before ++ pattern ++ after).take (j + pattern.length) <+: (before ++ pattern).dropLast := by
      refine List.prefix_of_prefix_length_le (List.take_prefix _ _) hstart ?_
      simp only [List.length_take, List.length_dropLast, List.length_append]
      omega
    refine List.IsInfix.trans ?_ hend.isInfix
    rw [List.take_add]
    have heq := List.prefix_iff_eq_take.1 hat
    rw [← heq]
    exact (List.suffix_append _ _).isInfix

variable [DecidableEq α]

/-- The first place a pattern is at. -/
def find (pattern text : List α) : Option Nat := text.tails.findIdx? fun tail => pattern <+: tail

theorem find_eq_some_iff_drop {i : Nat} :
    find pattern text = some i ↔ i ≤ text.length ∧ pattern <+: text.drop i ∧ ∀ j, j < i → ¬pattern <+: text.drop j := by
  rw [find, List.findIdx?_eq_some_iff_getElem]
  simp only [List.length_tails, List.getElem_tails, decide_eq_true_eq, Nat.lt_succ_iff]
  constructor
  · rintro ⟨hi, hstart, hfirst⟩
    exact ⟨hi, hstart, hfirst⟩
  · rintro ⟨hi, hstart, hfirst⟩
    exact ⟨hi, hstart, hfirst⟩

theorem find_eq_some_iff (hpattern : pattern ≠ []) {i : Nat} :
    find pattern text = some i ↔ ∃ before after, text = before ++ pattern ++ after ∧ i = before.length ∧
      ¬pattern <:+: (before ++ pattern).dropLast := by
  rw [find_eq_some_iff_drop]
  constructor
  · rintro ⟨hi, ⟨after, hafter⟩, hfirst⟩
    have hlength : i = (text.take i).length := by rw [List.length_take, Nat.min_eq_left hi]
    have htext : text = text.take i ++ pattern ++ after := by rw [List.append_assoc, hafter, List.take_append_drop]
    refine ⟨text.take i, after, htext, hlength, ?_⟩
    rw [isInfix_dropLast_iff hpattern _ after, ← htext, ← hlength]
    rintro ⟨j, hj, hat⟩
    exact hfirst j hj hat
  · rintro ⟨before, after, rfl, rfl, hfirst⟩
    rw [isInfix_dropLast_iff hpattern before after] at hfirst
    refine ⟨by simp only [List.length_append]; omega, ?_, fun j hj hat => hfirst ⟨j, hj, hat⟩⟩
    rw [List.append_assoc, List.drop_left]
    exact List.prefix_append _ _

end Find
