import ChromeLight.Lib.Forest
import Mathlib.Data.List.Nodup
import Mathlib.Data.List.Perm.Subperm

/-!
# Arenas built bottom-up

An arena that only grows: each new entry takes its children from the entries made before it that nobody has taken yet, the
pending ones, and is pending itself until somebody takes or drops it. `BottomUp kids pending` says that the arena with child
lists `kids` was built so: children come before their parents, and no entry is taken twice.
-/

namespace Arena

/-- The arena with child lists `kids` was built bottom-up and has the entries `pending` left to take. -/
structure BottomUp (kids : List (List Nat)) (pending : List Nat) : Prop where
  smaller : ∀ (p : Nat) (cs : List Nat), kids[p]? = some cs → ∀ c ∈ cs, c < p
  present : ∀ i ∈ pending, i < kids.length
  once : (kids.flatten ++ pending).Nodup

variable {kids : List (List Nat)} {pending rest cs : List Nat}

namespace BottomUp

theorem nil : BottomUp [] [] := ⟨by simp, by simp, by simp⟩

/-- Pending entries may be dropped, and come in any order. -/
theorem drop (h : BottomUp kids pending) (hr : List.Subperm rest pending) : BottomUp kids rest := by
  obtain ⟨hk, hp, hdis⟩ := List.nodup_append.1 h.once
  have hrest : rest.Nodup := by
    obtain ⟨l, hperm, hsub⟩ := hr
    exact hperm.nodup_iff.1 (hp.sublist hsub)
  refine ⟨h.smaller, fun i hi => h.present i (hr.subset hi), List.nodup_append.2 ⟨hk, hrest, ?_⟩⟩
  exact fun a ha b hb => hdis a ha b (hr.subset hb)

theorem lt_of_mem (h : BottomUp kids pending) {p c : Nat} (hp : kids[p]? = some cs) (hc : c ∈ cs) :
    c < kids.length := by
  have hlt := (List.getElem?_eq_some_iff.1 hp).1
  have := h.smaller p cs hp c hc
  omega

theorem lt_of_mem_flatten (h : BottomUp kids pending) {c : Nat} (hc : c ∈ kids.flatten) : c < kids.length := by
  obtain ⟨cs, hcs, hc⟩ := List.mem_flatten.1 hc
  obtain ⟨p, hp⟩ := List.mem_iff_getElem?.1 hcs
  exact h.lt_of_mem hp hc

/-- A new entry takes some of the pending ones and is pending itself. -/
theorem push (h : BottomUp kids pending) (hr : List.Subperm (cs ++ rest) pending) :
    BottomUp (kids ++ [cs]) (rest ++ [kids.length]) := by
  have hd := h.drop hr
  refine ⟨?_, ?_, ?_⟩
  · intro p ds hp c hc
    rcases Nat.lt_or_ge p kids.length with hlt | hge
    · rw [List.getElem?_append_left hlt] at hp
      exact h.smaller p ds hp c hc
    · obtain ⟨hp', rfl⟩ : p - kids.length = 0 ∧ ds = cs := by
        rw [List.getElem?_append_right hge, List.getElem?_singleton] at hp
        split at hp
        · cases hp
          exact ⟨by assumption, rfl⟩
        · cases hp
      have := hd.present c (List.mem_append_left _ hc)
      omega
  · intro i hi
    rw [List.length_append, List.length_singleton]
    rcases List.mem_append.1 hi with hi | hi
    · have := hd.present i (List.mem_append_right _ hi)
      omega
    · rw [List.mem_singleton.1 hi]
      omega
  · have hnew : kids.length ∉ kids.flatten ++ (cs ++ rest) := by
      intro hm
      rcases List.mem_append.1 hm with hm | hm
      · exact absurd (h.lt_of_mem_flatten hm) (Nat.lt_irrefl _)
      · exact absurd (hd.present _ hm) (Nat.lt_irrefl _)
    have := List.nodup_append.2 ⟨hd.once, List.nodup_singleton kids.length, fun a ha b hb => by
      rw [List.mem_singleton.1 hb]
      exact fun e => hnew (e ▸ ha)⟩
    simpa only [List.flatten_append, List.flatten_singleton, List.append_assoc] using this

/-- Nobody is taken twice. -/
theorem unique (h : BottomUp kids pending) {p q c : Nat} {ds : List Nat} (hp : kids[p]? = some cs)
    (hq : kids[q]? = some ds) (hc : c ∈ cs) (hd : c ∈ ds) : p = q := by
  have hn := (List.nodup_append.1 h.once).1
  have hpair := (List.nodup_flatten.1 hn).2
  by_contra hne
  obtain ⟨hp1, rfl⟩ := List.getElem?_eq_some_iff.1 hp
  obtain ⟨hq1, rfl⟩ := List.getElem?_eq_some_iff.1 hq
  rcases Nat.lt_or_gt_of_ne hne with hlt | hlt
  · exact List.pairwise_iff_getElem.1 hpair p q hp1 hq1 hlt hc hd
  · exact List.pairwise_iff_getElem.1 hpair q p hq1 hp1 hlt hd hc

/-- Nobody is taken twice by the same entry. -/
theorem nodup (h : BottomUp kids pending) {p : Nat} (hp : kids[p]? = some cs) : cs.Nodup :=
  (List.nodup_flatten.1 (List.nodup_append.1 h.once).1).1 cs (List.mem_of_getElem? hp)

end BottomUp

end Arena
