import ChromeLight.OrderedForest
import ChromeLight.Sink
import ChromeLight.Lib.FlatList

/-!
# The flat lists of a forest

What the sink is for: for each node a flat list of the characters and the other nodes under it, into which the tree builder
puts more at the places it names. How the characters are cut into text nodes does not show in the flat lists of a forest
(`OrderedForest.flat`); where the forest is `Separated`, they are not cut at all.

A surgery on one child list is then an insertion into the flat lists: a node that goes in (`spliced`), a text that grows
(`grown`). `requested` is what the calls of the tree builder ask for, said of flat lists alone but for what is accepted.
-/

namespace ChromeLight

open LinkedForest (setKids)

/-- For each node a list of characters and nodes. -/
abbrev FlatLists := NodeId → List (FlatList.Item NodeId Char)

namespace OrderedForest

variable (F : OrderedForest)

/-- The contents of a text node. -/
def text (id : NodeId) : Option StrTendril :=
  match F.kind id with
  | some (.text t) => some t
  | _ => none

/-- The children of each node, with text nodes replaced by their contents. -/
def flat : FlatLists := fun p => FlatList.flat F.text (F.kids p)

/-- No node has two adjacent text children. -/
def Separated : Prop := ∀ p, FlatList.Separated F.text (F.kids p)

end OrderedForest

/-- Where the tree builder wants something: behind the children of a node, or in front of a node. -/
inductive Place where
  | last (parent : NodeId)
  | before (sibling : NodeId)
deriving DecidableEq, Repr

namespace Place

/-- The place is among the children of `p`, behind `L` and in front of `R`. -/
def Between (F : OrderedForest) (p : NodeId) (L R : List NodeId) : Place → Prop
  | .last parent => parent = p ∧ F.Known p ∧ F.kids p = L ∧ R = []
  | .before sibling => F.kids p = L ++ R ∧ R.head? = some sibling

/-- Flat lists with more content at a place. -/
def insert (content : List (FlatList.Item NodeId Char)) (lists : FlatLists) : Place → FlatLists
  | .last parent, q => if q = parent then lists q ++ content else lists q
  | .before sibling, q => FlatList.insertBefore sibling content (lists q)

/-- The place is not in front of a text node. -/
def NotBeforeText (F : OrderedForest) : Place → Prop
  | .last _ => True
  | .before sibling => F.text sibling = none

theorem Between.kids_eq {F : OrderedForest} {p : NodeId} {L R : List NodeId} {place : Place} (h : place.Between F p L R) :
    F.kids p = L ++ R := by
  cases place with
  | last parent =>
    obtain ⟨-, -, hk, rfl⟩ := h
    rw [hk, List.append_nil]
  | before sibling => exact h.1

theorem NotBeforeText.head {F : OrderedForest} {p : NodeId} {L R : List NodeId} {place : Place} (hp : place.NotBeforeText F)
    (h : place.Between F p L R) : ∀ b ∈ R.head?, F.text b = none := by
  intro b hb
  cases place with
  | last parent =>
    obtain ⟨-, -, -, rfl⟩ := h
    cases hb
  | before sibling =>
    obtain rfl := Option.some.inj (h.2.symm.trans hb)
    exact hp

end Place

/-- What a node or text adds to a flat list. -/
def NodeOrText.content : NodeOrText → List (FlatList.Item NodeId Char)
  | .appendNode node => [.node node]
  | .appendText text => FlatList.chars text

namespace OrderedForest

variable {F F' : OrderedForest} {p c : NodeId} {L R : List NodeId} {content : List (FlatList.Item NodeId Char)}

theorem text_congr {id : NodeId} (h : F'.kind id = F.kind id) : F'.text id = F.text id := by
  rw [text, text, h]

/-- Where the child lists and the texts in them are the same, the flat lists are. -/
theorem flat_congr (hk : F'.kids = F.kids) (ht : ∀ q, ∀ x ∈ F.kids q, F'.text x = F.text x) : F'.flat = F.flat := by
  funext q
  rw [flat, flat, hk]
  exact FlatList.flat_congr (ht q)

theorem separated_congr (hk : F'.kids = F.kids) (ht : ∀ q, ∀ x ∈ F.kids q, F'.text x = F.text x) (hF : F.Separated) :
    F'.Separated := by
  intro q
  rw [hk]
  exact FlatList.separated_congr (fun x hx => congrArg _ (ht q x hx)) (hF q)

/-! ## Surgeries as insertions -/

/-- One child list shows more content, behind `L` and in front of `R`; the others show what they did. -/
structure Gains (F F' : OrderedForest) (p : NodeId) (L R : List NodeId) (content : List (FlatList.Item NodeId Char)) :
    Prop where
  here : F'.flat p = FlatList.flat F.text L ++ content ++ FlatList.flat F.text R
  elsewhere : ∀ q, q ≠ p → F'.flat q = F.flat q

/-- Content gained at a place is content put there into the flat lists. -/
theorem Gains.flat_eq (h : Gains F F' p L R content) (hu : Forest.UniqueParents F.kids) {place : Place}
    (hb : place.Between F p L R) (ht : place.NotBeforeText F) : F'.flat = place.insert content F.flat := by
  funext q
  cases place with
  | last parent =>
    obtain ⟨rfl, -, rfl, rfl⟩ := hb
    rw [Place.insert]
    by_cases hq : q = parent
    · rw [if_pos hq, hq, h.here, FlatList.flat_nil, List.append_nil, flat]
    · rw [if_neg hq, h.elsewhere q hq]
  | before sibling =>
    obtain ⟨hk, hR⟩ := hb
    obtain ⟨R', rfl⟩ := List.head?_eq_some_iff.1 hR
    have hs : sibling ∈ F.kids p := hk ▸ List.mem_append_right _ List.mem_cons_self
    rw [Place.insert]
    by_cases hq : q = p
    · have hn : sibling ∉ L ++ R' := (List.nodup_cons.1 (List.nodup_middle.1 (hk ▸ hu.nodup p))).1
      rw [hq, h.here, flat, hk]
      refine (FlatList.insertBefore_flat ht ?_ ?_).symm
      · exact fun hL => hn (List.mem_append_left _ hL)
      · exact fun hR => hn (List.mem_append_right _ hR)
    · -- the sibling is nobody else's child
      rw [h.elsewhere q hq]
      refine (FlatList.insertBefore_of_not_mem ?_).symm
      intro hm
      exact hq (hu.parent sibling q p (FlatList.mem_of_node_mem_flat hm) hs)

/-- A node that goes in between two children is what its child list gains. -/
theorem spliced (hkids : F.kids p = L ++ R) (hk : F'.kids = setKids F.kids p (L ++ c :: R))
    (ht : ∀ q, ∀ x ∈ F.kids q, F'.text x = F.text x) : Gains F F' p L R (FlatList.items F'.text c) := by
  have hL : FlatList.flat F'.text L = FlatList.flat F.text L :=
    FlatList.flat_congr fun x hx => ht p x (hkids ▸ List.mem_append_left _ hx)
  have hR : FlatList.flat F'.text R = FlatList.flat F.text R :=
    FlatList.flat_congr fun x hx => ht p x (hkids ▸ List.mem_append_right _ hx)
  refine ⟨?_, ?_⟩
  · rw [flat, hk, LinkedForest.setKids_self, FlatList.flat_splice, hL, hR]
  · intro q hq
    rw [flat, hk, LinkedForest.setKids_ne _ _ hq]
    exact FlatList.flat_congr (ht q)

/-- It keeps texts apart if it is none, or has none beside it. -/
theorem separated_spliced (hF : F.Separated) (hkids : F.kids p = L ++ R) (hk : F'.kids = setKids F.kids p (L ++ c :: R))
    (ht : ∀ q, ∀ x ∈ F.kids q, F'.text x = F.text x)
    (hc : F'.text c = none ∨ (∀ a ∈ L.getLast?, F.text a = none) ∧ ∀ b ∈ R.head?, F.text b = none) : F'.Separated := by
  intro q
  rw [hk]
  by_cases hq : q = p
  · rw [hq, LinkedForest.setKids_self]
    have hmem : ∀ x ∈ L ++ R, F'.text x = F.text x := fun x hx => ht p x (hkids ▸ hx)
    refine FlatList.separated_splice (FlatList.separated_congr (fun x hx => congrArg _ (hmem x hx)) (hkids ▸ hF p)) ?_
    refine hc.imp_right ?_
    rintro ⟨hL, hR⟩
    refine ⟨?_, ?_⟩
    · intro a ha
      rw [hmem a (List.mem_append_left _ (List.mem_of_mem_getLast? ha))]
      exact hL a ha
    · intro b hb
      rw [hmem b (List.mem_append_right _ (List.mem_of_mem_head? hb))]
      exact hR b hb
  · rw [LinkedForest.setKids_ne _ _ hq]
    exact FlatList.separated_congr (fun x hx => congrArg _ (ht q x hx)) (hF q)

/-- A text that grows in front of a place gains its child list the new characters there. -/
theorem grown (hu : Forest.UniqueParents F.kids) (hkids : F.kids p = L ++ R) (hk : F'.kids = F.kids)
    (hc : L.getLast? = some c) {t u : StrTendril} (hold : F.text c = some t) (hnew : F'.text c = some (t ++ u))
    (hother : ∀ x, x ≠ c → F'.text x = F.text x) : Gains F F' p L R (FlatList.chars u) := by
  obtain ⟨L', rfl⟩ := List.getLast?_eq_some_iff.1 hc
  rw [List.append_assoc, List.singleton_append] at hkids
  have hn : c ∉ L' ++ R := (List.nodup_cons.1 (List.nodup_middle.1 (hkids ▸ hu.nodup p))).1
  refine ⟨?_, ?_⟩
  · rw [flat, hk, hkids]
    refine FlatList.flat_grow hold hnew hother ?_ ?_
    · exact fun hL => hn (List.mem_append_left _ hL)
    · exact fun hR => hn (List.mem_append_right _ hR)
  · intro q hq
    rw [flat, hk]
    refine FlatList.flat_congr fun x hx => hother x ?_
    rintro rfl
    exact hq (hu.parent x q p hx (hkids ▸ List.mem_append_right _ List.mem_cons_self))

/-- Texts that grow stay apart. -/
theorem separated_grown (hF : F.Separated) (hk : F'.kids = F.kids) (ht : ∀ x, (F'.text x).isSome = (F.text x).isSome) :
    F'.Separated := by
  intro q
  rw [hk]
  exact FlatList.separated_congr (fun x _ => ht x) (hF q)

end OrderedForest

/-! ## What the calls ask for -/

namespace DomSink

/-- When something is accepted at a place: the place exists; a node may be attached there; for text there is a text node in
front of the place, or room for a new one. -/
def Accepted (doc : Document) (place : Place) (child : NodeOrText) : Prop :=
  ∃ p L R, place.Between doc.forest p L R ∧
    match child with
    | .appendNode node => doc.forest.Attachable doc.root p node
    | .appendText _ => (∃ c ∈ L.getLast?, (doc.forest.text c).isSome) ∨ doc.len < u32Max

open Classical in
/-- The flat lists with what is accepted at a place. -/
noncomputable def inserted (doc : Document) (place : Place) (child : NodeOrText) (lists : FlatLists) : FlatLists :=
  if Accepted doc place child then place.insert child.content lists else lists

open Classical in
/-- What a call makes of the flat lists: new nodes are in none of them. -/
noncomputable def requestedBy (doc : Document) (lists : FlatLists) : Call → FlatLists
  | .createElement _ _ _ => lists
  | .createComment _ => lists
  | .createPi _ _ => lists
  | .append parent child => inserted doc (.last parent) child lists
  | .appendBeforeSibling sibling newNode => inserted doc (.before sibling) newNode lists
  | .appendBasedOnParentNode element prevElement child =>
    inserted doc (if doc.forest.Attached element then .before element else .last prevElement) child lists

/-- What a sequence of calls makes of the flat lists. -/
noncomputable def requested : List Call → Document → FlatLists → Part FlatLists
  | [], _, lists => .some lists
  | call :: calls, doc, lists => do requested calls (← perform doc call) (requestedBy doc lists call)

/-- A node that is handed over has no parent and is not a text node. -/
def Loose (doc : Document) : NodeOrText → Prop
  | .appendNode node => ¬doc.forest.Attached node ∧ doc.forest.text node = none
  | .appendText _ => True

/-- What the tree builder may call: it hands over loose nodes, and never names a text node as a sibling. -/
def Allowed (doc : Document) : Call → Prop
  | .createElement _ _ _ => True
  | .createComment _ => True
  | .createPi _ _ => True
  | .append _ child => Loose doc child
  | .appendBeforeSibling sibling newNode => doc.forest.text sibling = none ∧ Loose doc newNode
  | .appendBasedOnParentNode element _ child => doc.forest.text element = none ∧ Loose doc child

/-- Every call of the sequence may be made when it is made. -/
def Permitted : List Call → Document → Prop
  | [], _ => True
  | call :: calls, doc => Allowed doc call ∧ ∀ doc', perform doc call = .some doc' → Permitted calls doc'

end DomSink

end ChromeLight
