import Mathlib.Data.List.Chain
import Mathlib.Data.List.Basic

/-!
# Lists with their texts flattened

A list of entries, some of which are texts: stretches of characters that stand for the characters themselves. `flat` is the
list with every text replaced by its characters, so it does not show how the characters are cut into texts; in a `Separated`
list no two texts are neighbours, so they are not cut at all. The rules: where an entry goes in, or a text grows at its end,
the flat list has the new content in that one place (`flat_splice`, `flat_grow`), and texts stay apart.
-/

namespace FlatList

variable {ι α : Type*}

/-- What a flat list is made of: an entry that is no text, or a character of one that is. -/
inductive Item (ι α : Type*) where
  | node (i : ι)
  | char (c : α)
deriving DecidableEq, Repr

/-- The characters of a text. -/
def chars (t : List α) : List (Item ι α) := t.map .char

section

variable (text : ι → Option (List α))

/-- What an entry shows. -/
def items (i : ι) : List (Item ι α) :=
  match text i with
  | some t => chars t
  | none => [.node i]

/-- The list with every text replaced by its characters. -/
def flat (l : List ι) : List (Item ι α) := l.flatMap (items text)

/-- No two neighbours are both texts. -/
def Separated (l : List ι) : Prop := l.IsChain fun a b => ¬((text a).isSome ∧ (text b).isSome)

end

/-- Content put in front of an entry, wherever it is. -/
def insertBefore [DecidableEq ι] [DecidableEq α] (i : ι) (content l : List (Item ι α)) : List (Item ι α) :=
  l.flatMap fun x => if x = .node i then content ++ [x] else [x]

variable {text text' : ι → Option (List α)} {l L R : List ι} {i c : ι}

/-! ## What a list shows -/

theorem items_of_text {t : List α} (h : text i = some t) : items text i = chars t := by
  rw [items, h]

theorem items_of_node (h : text i = none) : items text i = [.node i] := by
  rw [items, h]

@[simp] theorem flat_nil : flat text [] = [] := rfl

@[simp] theorem flat_cons (i : ι) (l : List ι) : flat text (i :: l) = items text i ++ flat text l := rfl

theorem flat_append (L R : List ι) : flat text (L ++ R) = flat text L ++ flat text R := List.flatMap_append

theorem items_congr (h : text i = text' i) : items text i = items text' i := by
  rw [items, items, h]

theorem flat_congr (h : ∀ i ∈ l, text i = text' i) : flat text l = flat text' l := by
  induction l with
  | nil => rfl
  | cons i l ih =>
    rw [flat_cons, flat_cons, items_congr (h i List.mem_cons_self), ih fun j hj => h j (List.mem_cons_of_mem _ hj)]

/-- A list shows an entry only if it has it. -/
theorem mem_of_node_mem_flat (h : Item.node i ∈ flat text l) : i ∈ l := by
  obtain ⟨j, hj, hi⟩ := List.mem_flatMap.1 h
  cases htext : text j with
  | none =>
    rw [items_of_node htext, List.mem_singleton] at hi
    obtain rfl := Item.node.inj hi
    exact hj
  | some t =>
    rw [items_of_text htext] at hi
    obtain ⟨c, -, hc⟩ := List.mem_map.1 hi
    cases hc

/-- An entry that goes in shows in its place. -/
theorem flat_splice (L R : List ι) (c : ι) : flat text (L ++ c :: R) = flat text L ++ items text c ++ flat text R := by
  rw [flat_append, flat_cons, List.append_assoc]

/-- A text that grows at its end shows so behind it. -/
theorem flat_grow {t u : List α} (hold : text c = some t) (hnew : text' c = some (t ++ u))
    (hother : ∀ i, i ≠ c → text' i = text i) (hL : c ∉ L) (hR : c ∉ R) :
    flat text' (L ++ c :: R) = flat text (L ++ [c]) ++ chars u ++ flat text R := by
  have hleft : flat text' L = flat text L := flat_congr fun i hi => hother i fun h => hL (h ▸ hi)
  have hright : flat text' R = flat text R := flat_congr fun i hi => hother i fun h => hR (h ▸ hi)
  rw [flat_splice, flat_append, flat_cons, flat_nil, List.append_nil, hleft, hright, items_of_text hold, items_of_text hnew, chars,
    List.map_append, ← chars, ← chars]
  simp only [List.append_assoc]

/-! ## Texts apart -/

theorem separated_congr (h : ∀ i ∈ l, (text' i).isSome = (text i).isSome) (hl : Separated text l) : Separated text' l := by
  refine hl.imp_of_mem_imp ?_
  intro a b ha hb hab
  rw [h a ha, h b hb]
  exact hab

/-- Texts stay apart where an entry goes in that is no text, or has no text next to it. -/
theorem separated_splice (hl : Separated text (L ++ R))
    (hc : text c = none ∨ (∀ a ∈ L.getLast?, text a = none) ∧ ∀ b ∈ R.head?, text b = none) : Separated text (L ++ c :: R) := by
  obtain ⟨hL, hR, -⟩ := List.isChain_append.1 hl
  refine List.isChain_append.2 ⟨hL, List.isChain_cons.2 ⟨?_, hR⟩, ?_⟩
  · rintro b hb ⟨h1, h2⟩
    rcases hc with hc | ⟨-, hc⟩
    · rw [hc] at h1
      cases h1
    · rw [hc b hb] at h2
      cases h2
  · rintro a ha b hb ⟨h1, h2⟩
    obtain rfl := Option.some.inj hb
    rcases hc with hc | ⟨hc, -⟩
    · rw [hc] at h2
      cases h2
    · rw [hc a ha] at h1
      cases h1

/-! ## In front of an entry -/

section

variable [DecidableEq ι] [DecidableEq α] {content : List (Item ι α)}

theorem insertBefore_of_not_mem {l : List (Item ι α)} (h : Item.node i ∉ l) : insertBefore i content l = l := by
  induction l with
  | nil => rfl
  | cons x l ih =>
    have hx : x ≠ .node i := fun hx => h (hx ▸ List.mem_cons_self)
    rw [insertBefore, List.flatMap_cons, if_neg hx, ← insertBefore, ih fun hl => h (List.mem_cons_of_mem _ hl)]
    rfl

/-- Content put in front of an entry that the list has once. -/
theorem insertBefore_flat (hi : text i = none) (hL : i ∉ L) (hR : i ∉ R) :
    insertBefore i content (flat text (L ++ i :: R)) = flat text L ++ content ++ flat text (i :: R) := by
  have hleft : insertBefore i content (flat text L) = flat text L :=
    insertBefore_of_not_mem fun h => hL (mem_of_node_mem_flat h)
  have hright : insertBefore i content (flat text R) = flat text R :=
    insertBefore_of_not_mem fun h => hR (mem_of_node_mem_flat h)
  unfold insertBefore at hleft hright ⊢
  rw [flat_splice, items_of_node hi, List.flatMap_append, List.flatMap_append, hleft, hright, flat_cons, items_of_node hi,
    List.flatMap_cons, if_pos rfl, List.flatMap_nil, List.append_nil]
  simp only [List.append_assoc]

end

end FlatList
