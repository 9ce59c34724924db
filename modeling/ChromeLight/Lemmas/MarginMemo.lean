import ChromeLight.Lemmas.Margins
import ChromeLight.Theorems.BoxTree

/-!
# The memo of the effective margins

One call of `effectiveMargin`, whatever is in the memo already. The margins of a box's chain (`chainOf`) are those the chain
loop meets with an empty memo. A memo is good (`MemoGood`) when every value in it is the collapsed value of the chain of its
box in the containing block the layout gives that box, and when the parent of a box with a value has one too, or is the
root. Then a box that has no value has no box below it with one, so the loop is never cut short, and the values it enters
are those of the suffixes of one chain.
-/

namespace ChromeLight

namespace Block

/-- The containing block layout gives a box: the viewport for the root, the parent's content box for any other. -/
inductive ContainingBlock (Γ : FloatOps) (tree : BoxTree) (viewport : Size) : BoxId → Au → Option Au → Prop where
  | root : ContainingBlock Γ tree viewport tree.root viewport.w (some viewport.h)
  | child {p c : BoxId} {b : LayoutBox} {w : Au} {h : Option Au} (hp : ContainingBlock Γ tree viewport p w h)
      (hb : tree.get p = some b) (hc : c ∈ b.children) :
      ContainingBlock Γ tree viewport c (resolveBoxModel Γ b.style w h).contentWidth
        (resolveBoxModel Γ b.style w h).knownHeight

/-- The chain of a box with that model: the box and its first (or last) children, as far as the margins adjoin. -/
def chainOf (Γ : FloatOps) (tree : BoxTree) (edge : Edge) (id : BoxId) (style : LayoutStyle) (model : BoxModel) :
    List (BoxId × Au) :=
  (id, edge.margin model) :: chainBelow Γ tree edge [] tree.len id style model

/-- The margins of the chain of a box in a containing block, none for an id that does not resolve. -/
def chainMargins (Γ : FloatOps) (tree : BoxTree) (edge : Edge) (id : BoxId) (cbWidth : Au) (cbHeight : Option Au) :
    List Au :=
  match tree.get id with
  | some b => (chainOf Γ tree edge id b.style (resolveBoxModel Γ b.style cbWidth cbHeight)).map Prod.snd
  | none => []

/-- The collapsed margin of a box's chain in the containing block layout gives it. -/
def IsEffective (Γ : FloatOps) (tree : BoxTree) (viewport : Size) (edge : Edge) (id : BoxId) (v : Au) : Prop :=
  ∃ w h, ContainingBlock Γ tree viewport id w h ∧ v = collapseMarginSet (chainMargins Γ tree edge id w h)

variable {Γ : FloatOps} {tree : BoxTree} {viewport : Size} {document : Document} {edge : Edge}

/-! ## Containing blocks -/

/-- No box that layout reaches comes after the root, and only the root is as late. -/
theorem ContainingBlock.index_le (inv : tree.Invariant document) {id : BoxId} {w : Au} {h : Option Au}
    (hcb : ContainingBlock Γ tree viewport id w h) : id = tree.root ∨ id.index < tree.root.index := by
  induction hcb with
  | root => exact .inl rfl
  | child _ hb hc ih =>
    have hlt := (inv.resolves _ _ hb _ hc).1
    rcases ih with rfl | ih
    · exact .inr hlt
    · exact .inr (Nat.lt_trans hlt ih)

/-- The root is nobody's child. -/
theorem ContainingBlock.ne_root (inv : tree.Invariant document) {p c : BoxId} {b : LayoutBox} {w : Au} {h : Option Au}
    (hp : ContainingBlock Γ tree viewport p w h) (hb : tree.get p = some b) (hc : c ∈ b.children) : c ≠ tree.root := by
  rintro rfl
  have hlt := (inv.resolves _ _ hb _ hc).1
  rcases hp.index_le inv with rfl | h
  · exact Nat.lt_irrefl _ hlt
  · exact Nat.lt_asymm hlt h

theorem ContainingBlock.unique (inv : tree.Invariant document) {id : BoxId} {w w' : Au} {h h' : Option Au}
    (hcb : ContainingBlock Γ tree viewport id w h) (hcb' : ContainingBlock Γ tree viewport id w' h') :
    w = w' ∧ h = h' := by
  induction hcb generalizing w' h' with
  | root =>
    cases hcb' with
    | root => exact ⟨rfl, rfl⟩
    | child hp hb hc => exact absurd rfl (hp.ne_root inv hb hc)
  | child hp hb hc ih =>
    cases hcb' with
    | root => exact absurd rfl (hp.ne_root inv hb hc)
    | child hp' hb' hc' =>
      obtain rfl := inv.uniqueParents.parent _ _ _ (BoxTree.mem_kids.2 ⟨_, hb, hc⟩) (BoxTree.mem_kids.2 ⟨_, hb', hc'⟩)
      obtain rfl := Option.some.inj (hb.symm.trans hb')
      obtain ⟨rfl, rfl⟩ := ih hp'
      exact ⟨rfl, rfl⟩

/-! ## The two edges -/

/-- Two models that a chain cannot tell apart. -/
structure Edge.Same (edge : Edge) (m m' : BoxModel) : Prop where
  contentWidth : m.contentWidth = m'.contentWidth
  margin : edge.margin m = edge.margin m'
  collapsesThrough : ∀ style, edge.collapsesThrough style m = edge.collapsesThrough style m'

/-- What the chain loop relies on: it goes to children, and past a box whose margin adjoins its child's, the child has no
definite containing block height that would matter. -/
structure Edge.Lawful (Γ : FloatOps) (edge : Edge) : Prop where
  child : ∀ {tree : BoxTree} {id c : BoxId}, edge.blockChild tree id = some c →
    ∃ b d, tree.get id = some b ∧ c ∈ b.children ∧ tree.get c = some d
  next : ∀ {m m' : BoxModel} {style : LayoutStyle}, edge.Same m m' → edge.collapsesThrough style m = true →
    ∀ childStyle, edge.Same (resolveBoxModel Γ childStyle m.contentWidth m.knownHeight)
      (resolveBoxModel Γ childStyle m'.contentWidth none)

theorem Edge.Same.refl (m : BoxModel) : edge.Same m m := ⟨rfl, rfl, fun _ => rfl⟩

theorem blockLevelChild_eq {child : Option BoxId} {c : BoxId} (h : blockLevelChild tree child = some c) :
    child = some c ∧ ∃ d, tree.get c = some d ∧ BoxGen.isBlockLevel d.kind = true := by
  unfold blockLevelChild at h
  split at h
  · cases h
  · split at h
    · cases h
    · split at h
      · cases h
        exact ⟨rfl, _, by assumption, by assumption⟩
      · cases h

/-- A box with a block-level child is a block, and all its children are block-level. -/
theorem blockLevel_siblings (inv : tree.Invariant document) {p c : BoxId} {b d : LayoutBox} (hb : tree.get p = some b)
    (hmade : b.kind ≠ .anonymousInline) (hc : c ∈ b.children) (hd : tree.get c = some d)
    (hlevel : BoxGen.isBlockLevel d.kind = true) :
    (b.kind = .block ∨ b.kind = .anonymousBlock) ∧
      ∀ c ∈ b.children, ∃ d, tree.get c = some d ∧ BoxGen.isBlockLevel d.kind = true := by
  have mixed : ∀ {P : Prop}, (∀ c ∈ b.children, ∃ d, tree.get c = some d ∧ BoxGen.isBlockLevel d.kind = false) → P := by
    intro P hnone
    obtain ⟨d', hd', hfalse⟩ := hnone c hc
    obtain rfl := Option.some.inj (hd.symm.trans hd')
    rw [hlevel] at hfalse
    cases hfalse
  have leaf : ∀ {P : Prop}, b.children = [] → P := by
    intro P hnil
    rw [hnil] at hc
    cases hc
  cases hk : b.kind with
  | block => exact ⟨.inl rfl, (inv.levels p b hb (.inl hk)).elim (fun h => h) mixed⟩
  | anonymousBlock => exact ⟨.inr rfl, (inv.levels p b hb (.inr hk)).elim (fun h => h) mixed⟩
  | inline => exact mixed (inv.inline p b hb hk)
  | anonymousInline => exact absurd hk hmade
  | inlineText n => exact leaf (inv.leaf p b hb (.inl ⟨n, hk⟩))
  | lineBreak => exact leaf (inv.leaf p b hb (.inr hk))

/-- All children of a container are block-level. -/
theorem blockLevel_of_container (inv : tree.Invariant document) {p : BoxId} {b : LayoutBox} (hb : tree.get p = some b)
    (hmade : b.kind ≠ .anonymousInline) (hk : isBlockContainer tree p = true) :
    ∀ c ∈ b.children, ∃ d, tree.get c = some d ∧ BoxGen.isBlockLevel d.kind = true := by
  obtain ⟨first, hfirst⟩ := Option.isSome_iff_exists.1 hk
  obtain ⟨hhead, d, hd, hlevel⟩ := blockLevelChild_eq hfirst
  rw [hb] at hhead
  exact (blockLevel_siblings inv hb hmade (List.mem_of_mem_head? hhead) hd hlevel).2

theorem topEdge_lawful : topEdge.Lawful Γ where
  child h := by
    obtain ⟨hc, d, hd, -⟩ := blockLevelChild_eq h
    obtain ⟨b, hb, hhead⟩ := Option.bind_eq_some_iff.1 hc
    exact ⟨b, d, hb, List.mem_of_mem_head? hhead, hd⟩
  next hs _ childStyle := by
    rw [hs.contentWidth]
    exact ⟨rfl, rfl, fun _ => rfl⟩

theorem bottomEdge_lawful : bottomEdge.Lawful Γ where
  child h := by
    obtain ⟨hc, d, hd, -⟩ := blockLevelChild_eq h
    obtain ⟨b, hb, hlast⟩ := Option.bind_eq_some_iff.1 hc
    exact ⟨b, d, hb, List.mem_of_getLast? hlast, hd⟩
  next {m m' style} hs hc childStyle := by
    have hknown : m.knownHeight = none := by
      simp only [bottomEdge, decide_eq_true_eq] at hc
      exact hc.2.1
    rw [hs.contentWidth, hknown]
    exact Edge.Same.refl _

/-! ## Chains -/

/-- No box below this one has a value in the memo. -/
def Fresh (tree : BoxTree) (memo : List (Option Au)) (id : BoxId) : Prop :=
  ∀ z, Relation.TransGen (Forest.Child tree.kids) z id → lookup memo z = none

theorem fresh_nil (id : BoxId) : Fresh tree [] id := fun _ _ => rfl

theorem Fresh.kid {memo : List (Option Au)} {id c : BoxId} (h : Fresh tree memo id) (hc : c ∈ tree.kids id) :
    Fresh tree memo c := fun z hz => h z (hz.tail hc)

/-- The chain below a box is the same with any memo that has no value below the box, with any counter that is not below the
box's index, and with any model that agrees with the box's. -/
theorem chainBelow_eq (law : edge.Lawful Γ) (inv : tree.Invariant document) {memo memo' : List (Option Au)} {n n' : Nat}
    {id : BoxId} (style : LayoutStyle) {m m' : BoxModel} (hn : id.index ≤ n) (hn' : id.index ≤ n')
    (hf : Fresh tree memo id) (hf' : Fresh tree memo' id) (hs : edge.Same m m') :
    chainBelow Γ tree edge memo n id style m = chainBelow Γ tree edge memo' n' id style m' := by
  have first : ∀ id : BoxId, id.index = 0 → edge.blockChild tree id = none := by
    intro id h0
    cases hc : edge.blockChild tree id with
    | none => rfl
    | some c =>
      obtain ⟨b, d, hb, hmem, -⟩ := law.child hc
      have := (inv.resolves _ _ hb _ hmem).1
      omega
  induction n generalizing n' id style m m' with
  | zero =>
    cases n' with
    | zero => rfl
    | succ n' =>
      unfold chainBelow
      rw [first id (by omega)]
      split <;> rfl
  | succ n ih =>
    cases n' with
    | zero =>
      unfold chainBelow
      rw [first id (by omega)]
      split <;> rfl
    | succ n' =>
      unfold chainBelow
      rw [hs.collapsesThrough]
      cases hthrough : edge.collapsesThrough style m' with
      | false => rfl
      | true =>
        cases hc : edge.blockChild tree id with
        | none => rfl
        | some c =>
          obtain ⟨b, d, hb, hmem, hd⟩ := law.child hc
          have hkid : c ∈ tree.kids id := BoxTree.mem_kids.2 ⟨b, hb, hmem⟩
          have hlt := (inv.resolves _ _ hb _ hmem).1
          have h1 := hf c (.single hkid)
          have h2 := hf' c (.single hkid)
          have hsame : edge.Same (resolveBoxModel Γ d.style m.contentWidth none)
              (resolveBoxModel Γ d.style m'.contentWidth none) := by
            rw [hs.contentWidth]
            exact Edge.Same.refl _
          simp only [h1, h2, hd, Option.isSome_none, Bool.false_eq_true, if_false, Bool.not_true, hsame.margin]
          exact congrArg _ (ih d.style (by omega) (by omega) (hf.kid hkid) (hf'.kid hkid) hsame)

theorem index_lt_len {id : BoxId} {b : LayoutBox} (h : tree.get id = some b) : id.index < tree.len :=
  (List.getElem?_eq_some_iff.1 h).1

/-- Every suffix of the chain below a box is the chain of its first box, in the containing block layout gives that box; and
the parent of that box is the box before it. -/
theorem chainBelow_suffix (law : edge.Lawful Γ) (inv : tree.Invariant document) {n : Nat} {id : BoxId} {b : LayoutBox}
    {w : Au} {h : Option Au} {m : BoxModel} (hn : id.index ≤ n) (hb : tree.get id = some b)
    (hcb : ContainingBlock Γ tree viewport id w h) (hs : edge.Same (resolveBoxModel Γ b.style w h) m)
    {before after : List (BoxId × Au)} {link : BoxId × Au}
    (he : chainBelow Γ tree edge [] n id b.style m = before ++ link :: after) :
    (∃ w' h', ContainingBlock Γ tree viewport link.1 w' h' ∧
      chainMargins Γ tree edge link.1 w' h' = (link :: after).map Prod.snd) ∧
    ∃ p, (p = id ∨ p ∈ before.map Prod.fst) ∧ link.1 ∈ tree.kids p := by
  induction n generalizing id b w h m before with
  | zero => simp [chainBelow] at he
  | succ n ih =>
    unfold chainBelow at he
    cases hthrough : edge.collapsesThrough b.style m with
    | false => simp [hthrough] at he
    | true =>
      cases hc : edge.blockChild tree id with
      | none => simp [hthrough, hc] at he
      | some c =>
        obtain ⟨b', d, hb', hmem, hd⟩ := law.child hc
        obtain rfl := Option.some.inj (hb.symm.trans hb')
        have hkid : c ∈ tree.kids id := BoxTree.mem_kids.2 ⟨b, hb, hmem⟩
        have hlt := (inv.resolves _ _ hb _ hmem).1
        have hcb' := ContainingBlock.child hcb hb hmem
        have hs' := law.next hs ((hs.collapsesThrough b.style).trans hthrough) d.style
        simp only [hthrough, hc, hd, lookup, List.getElem?_nil, Option.join_none, Option.isSome_none,
          Bool.false_eq_true, if_false, Bool.not_true] at he
        cases before with
        | nil =>
          obtain ⟨rfl, rfl⟩ := List.cons.inj he
          have hcn : c.index ≤ n := by omega
          have hbelow := chainBelow_eq law inv d.style (Nat.le_of_lt (index_lt_len hd)) hcn (fresh_nil c) (fresh_nil c) hs'
          refine ⟨⟨_, _, hcb', ?_⟩, id, .inl rfl, hkid⟩
          simp only [chainMargins, hd, chainOf, List.map_cons, hs'.margin, hbelow]
        | cons first before =>
          obtain ⟨rfl, htail⟩ := List.cons.inj he
          obtain ⟨h1, p, hp, hmemp⟩ := ih (by omega) hd hcb' hs' htail
          refine ⟨h1, p, .inr ?_, hmemp⟩
          rcases hp with rfl | hp
          · exact List.mem_cons_self
          · exact List.mem_cons_of_mem _ hp

/-- The boxes of a chain come in decreasing order of their indices. -/
theorem chainOf_sorted (law : edge.Lawful Γ) (inv : tree.Invariant document) (id : BoxId) (style : LayoutStyle)
    (m : BoxModel) :
    ((chainOf Γ tree edge id style m).map Prod.fst).Pairwise fun a b => b.index < a.index := by
  suffices key : ∀ n memo, ((chainBelow Γ tree edge memo n id style m).map Prod.fst).Pairwise (fun a b => b.index < a.index) ∧
      ∀ x ∈ (chainBelow Γ tree edge memo n id style m).map Prod.fst, x.index < id.index by
    exact List.pairwise_cons.2 ⟨(key _ _).2, (key _ _).1⟩
  intro n memo
  induction n generalizing id style m with
  | zero => exact ⟨List.Pairwise.nil, by simp [chainBelow]⟩
  | succ n ih =>
    unfold chainBelow
    cases hthrough : edge.collapsesThrough style m with
    | false => exact ⟨List.Pairwise.nil, by simp⟩
    | true =>
      cases hc : edge.blockChild tree id with
      | none => exact ⟨List.Pairwise.nil, by simp⟩
      | some c =>
        obtain ⟨b, d, hb, hmem, hd⟩ := law.child hc
        have hlt := (inv.resolves _ _ hb _ hmem).1
        obtain ⟨h1, h2⟩ := ih c d.style (resolveBoxModel Γ d.style m.contentWidth none)
        cases hv : (lookup memo c).isSome with
        | true => exact ⟨by simp [hv], by simp [hv]⟩
        | false =>
          simp only [hv, hd, Bool.not_true, Bool.false_eq_true, if_false, List.map_cons, List.mem_cons]
          refine ⟨List.pairwise_cons.2 ⟨h2, h1⟩, ?_⟩
          rintro x (rfl | hx)
          · exact hlt
          · exact Nat.lt_trans (h2 x hx) hlt

theorem chainOf_nodup (law : edge.Lawful Γ) (inv : tree.Invariant document) (id : BoxId) (style : LayoutStyle)
    (m : BoxModel) : ((chainOf Γ tree edge id style m).map Prod.fst).Nodup := by
  refine (chainOf_sorted law inv id style m).imp ?_
  rintro a c hac rfl
  exact Nat.lt_irrefl _ hac

theorem chainOf_lt_len (law : edge.Lawful Γ) (inv : tree.Invariant document) {id : BoxId} {b : LayoutBox}
    (hb : tree.get id = some b) (style : LayoutStyle) (m : BoxModel) :
    ∀ link ∈ chainOf Γ tree edge id style m, link.1.index < tree.len := by
  intro link hlink
  rcases List.mem_cons.1 hlink with rfl | hlink
  · exact index_lt_len hb
  · have hsorted := chainOf_sorted law inv id style m
    exact Nat.lt_trans ((List.pairwise_cons.1 hsorted).1 _ (List.mem_map_of_mem hlink)) (index_lt_len hb)

/-! ## The memo -/

/-- The values in a memo are right, and a box with a value has a parent with one, or the root as its parent. -/
structure MemoGood (Γ : FloatOps) (tree : BoxTree) (viewport : Size) (edge : Edge) (memo : List (Option Au)) : Prop where
  length : memo.length = tree.len
  correct : ∀ id v, lookup memo id = some v → IsEffective Γ tree viewport edge id v
  closed : ∀ p c, c ∈ tree.kids p → (lookup memo c).isSome → p = tree.root ∨ (lookup memo p).isSome

theorem lookup_new (n : Nat) (id : BoxId) : lookup (List.replicate n none) id = none := by
  unfold lookup
  rw [List.getElem?_replicate]
  split <;> rfl

theorem memoGood_new : MemoGood Γ tree viewport edge (List.replicate tree.len none) where
  length := List.length_replicate
  correct id v h := by
    rw [lookup_new] at h
    cases h
  closed p c _ h := by
    rw [lookup_new] at h
    cases h

/-- Below a box that has no value, and is not the root, no box has a value. -/
theorem MemoGood.fresh (inv : tree.Invariant document) {memo : List (Option Au)} (h : MemoGood Γ tree viewport edge memo)
    {id : BoxId} {w : Au} {k : Option Au} (hcb : ContainingBlock Γ tree viewport id w k) (hne : id ≠ tree.root)
    (hid : lookup memo id = none) : Fresh tree memo id := by
  intro z hz
  have none_of_kid : ∀ c p, c ∈ tree.kids p → p ≠ tree.root → lookup memo p = none → lookup memo c = none := by
    intro c p hc hp hnone
    cases hv : lookup memo c with
    | none => rfl
    | some v =>
      rcases h.closed p c hc (by rw [hv]; rfl) with h | h
      · exact absurd h hp
      · rw [hnone] at h
        cases h
  -- every box below is reached by layout, and so is not the root
  have key : lookup memo z = none ∧ z ≠ tree.root ∧ ∃ w k, ContainingBlock Γ tree viewport z w k := by
    induction hz using Relation.TransGen.head_induction_on with
    | single hc =>
      obtain ⟨b, hb, hmem⟩ := BoxTree.mem_kids.1 hc
      exact ⟨none_of_kid _ _ hc hne hid, hcb.ne_root inv hb hmem, _, _, hcb.child hb hmem⟩
    | head hc _ ih =>
      obtain ⟨hnone, hp, w', k', hcb'⟩ := ih
      obtain ⟨b, hb, hmem⟩ := BoxTree.mem_kids.1 hc
      exact ⟨none_of_kid _ _ hc hp hnone, hcb'.ne_root inv hb hmem, _, _, hcb'.child hb hmem⟩
  exact key.1

/-- Every suffix of a box's chain is the chain of its first box, and the parent of a later box comes before it in the
chain. -/
theorem chainOf_suffix (law : edge.Lawful Γ) (inv : tree.Invariant document) {id : BoxId} {b : LayoutBox} {w : Au}
    {h : Option Au} (hb : tree.get id = some b) (hcb : ContainingBlock Γ tree viewport id w h)
    {before after : List (BoxId × Au)} {link : BoxId × Au}
    (he : chainOf Γ tree edge id b.style (resolveBoxModel Γ b.style w h) = before ++ link :: after) :
    IsEffective Γ tree viewport edge link.1 (collapseMarginSet ((link :: after).map Prod.snd)) ∧
    (link.1 = id ∨ ∃ p ∈ before.map Prod.fst, link.1 ∈ tree.kids p) := by
  cases before with
  | nil =>
    obtain ⟨rfl, rfl⟩ := List.cons.inj he
    refine ⟨⟨w, h, hcb, ?_⟩, .inl rfl⟩
    rw [chainMargins, hb]
    rfl
  | cons first before =>
    obtain ⟨rfl, htail⟩ := List.cons.inj he
    obtain ⟨⟨w', h', hcb', hm⟩, p, hp, hmem⟩ := chainBelow_suffix law inv (Nat.le_of_lt (index_lt_len hb)) hb hcb
      (Edge.Same.refl _) htail
    refine ⟨⟨w', h', hcb', by rw [hm]⟩, .inr ⟨p, ?_, hmem⟩⟩
    rcases hp with rfl | hp
    · exact List.mem_cons_self
    · exact List.mem_cons_of_mem _ hp

/-- Entering a chain keeps a memo good, if the values are right and the parents of the boxes have values, or are the root, or
come before in the chain. -/
theorem MemoGood.memoize (inv : tree.Invariant document) {memo : List (Option Au)}
    (hm : MemoGood Γ tree viewport edge memo) {chain : List (BoxId × Au)} {p : BoxId}
    (hp : p = tree.root ∨ (lookup memo p).isSome) (hlt : ∀ link ∈ chain, link.1.index < tree.len)
    (hn : (chain.map Prod.fst).Nodup)
    (hs : ∀ before link after, chain = before ++ link :: after →
      IsEffective Γ tree viewport edge link.1 (collapseMarginSet ((link :: after).map Prod.snd)) ∧
      (link.1 ∈ tree.kids p ∨ ∃ q ∈ before.map Prod.fst, link.1 ∈ tree.kids q)) :
    MemoGood Γ tree viewport edge (memoizeSuffixCollapse chain memo) ∧
      (∀ id ∈ chain.map Prod.fst, (lookup (memoizeSuffixCollapse chain memo) id).isSome) ∧
      ∀ z, (lookup memo z).isSome → (lookup (memoizeSuffixCollapse chain memo) z).isSome := by
  rw [← hm.length] at hlt
  have inside : ∀ id ∈ chain.map Prod.fst, ∃ before link after, chain = before ++ link :: after ∧ link.1 = id ∧
      lookup (memoizeSuffixCollapse chain memo) id = some (collapseMarginSet ((link :: after).map Prod.snd)) := by
    intro id hid
    obtain ⟨link, hlink, rfl⟩ := List.mem_map.1 hid
    obtain ⟨before, after, rfl⟩ := List.append_of_mem hlink
    exact ⟨before, link, after, rfl, rfl, lookup_memoize hlt hn⟩
  have outside : ∀ id, id ∉ chain.map Prod.fst → lookup (memoizeSuffixCollapse chain memo) id = lookup memo id :=
    fun id hid => lookup_memoize_of_not_mem hlt hid
  have present : ∀ id ∈ chain.map Prod.fst, (lookup (memoizeSuffixCollapse chain memo) id).isSome :=
    fun id hid => (isSome_lookup_memoize hlt hn id).2 (.inl hid)
  have mono : ∀ z, (lookup memo z).isSome → (lookup (memoizeSuffixCollapse chain memo) z).isSome :=
    fun z hz => (isSome_lookup_memoize hlt hn z).2 (.inr hz)
  refine ⟨⟨(length_memoizeSuffixCollapse chain memo).trans hm.length, ?_, ?_⟩, present, mono⟩
  · intro id v hv
    by_cases hin : id ∈ chain.map Prod.fst
    · obtain ⟨before, link, after, he, rfl, hv'⟩ := inside id hin
      obtain rfl := Option.some.inj (hv'.symm.trans hv)
      exact (hs before link after he).1
    · exact hm.correct id v (outside id hin ▸ hv)
  · intro q c hc hsome
    by_cases hin : c ∈ chain.map Prod.fst
    · obtain ⟨before, link, after, he, rfl, -⟩ := inside c hin
      rcases (hs before link after he).2 with hk | ⟨q', hq', hk⟩
      · obtain rfl := inv.uniqueParents.parent _ _ _ hk hc
        exact hp.imp_right (mono _)
      · obtain rfl := inv.uniqueParents.parent _ _ _ hk hc
        refine .inr (present _ ?_)
        rw [he, List.map_append]
        exact List.mem_append_left _ hq'
    · rw [outside c hin] at hsome
      exact (hm.closed q c hc hsome).imp_right (mono q)

/-- One call of `effectiveMargin` for a box whose parent has a value or is the root: it returns the collapsed margin of the
box's chain and leaves a good memo, with the box and all that was there in it. -/
theorem effectiveMargin_spec (law : edge.Lawful Γ) (inv : tree.Invariant document) {memo : List (Option Au)}
    (hm : MemoGood Γ tree viewport edge memo) {id p : BoxId} {b : LayoutBox} {w : Au} {h : Option Au}
    (hb : tree.get id = some b) (hcb : ContainingBlock Γ tree viewport id w h) (hne : id ≠ tree.root)
    (hp : id ∈ tree.kids p) (hpm : p = tree.root ∨ (lookup memo p).isSome) :
    let r := effectiveMargin Γ tree edge id b.style (resolveBoxModel Γ b.style w h) memo
    IsEffective Γ tree viewport edge id r.1 ∧ MemoGood Γ tree viewport edge r.2 ∧ (lookup r.2 id).isSome ∧
      ∀ z, (lookup memo z).isSome → (lookup r.2 z).isSome := by
  unfold effectiveMargin
  cases hv : lookup memo id with
  | some v => exact ⟨hm.correct id v hv, hm, by rw [hv]; rfl, fun z hz => hz⟩
  | none =>
    have hlen := Nat.le_of_lt (index_lt_len hb)
    have hbelow := chainBelow_eq law inv b.style hlen hlen (hm.fresh inv hcb hne hv) (fresh_nil id)
      (Edge.Same.refl (resolveBoxModel Γ b.style w h))
    simp only [hbelow]
    have hlt := chainOf_lt_len law inv hb b.style (resolveBoxModel Γ b.style w h)
    have hn := chainOf_nodup law inv id b.style (resolveBoxModel Γ b.style w h)
    obtain ⟨hgood, hpresent, hmono⟩ := hm.memoize inv hpm hlt hn fun before link after he => by
      obtain ⟨heff, hpar⟩ := chainOf_suffix law inv hb hcb he
      refine ⟨heff, hpar.imp_left ?_⟩
      intro e
      rw [e]
      exact hp
    have hid := hpresent id (List.mem_map_of_mem List.mem_cons_self)
    refine ⟨?_, hgood, hid, hmono⟩
    obtain ⟨v, hv'⟩ := Option.isSome_iff_exists.1 hid
    have heff := hgood.correct id v hv'
    unfold chainOf at hv'
    rwa [hv']

end Block

end ChromeLight
