import ChromeLight.Lemmas.BoxForest
import ChromeLight.Theorems.Dom

/-!
# What the box tree of a document is

Two results about `BoxGen.build`, for every styled document. Its boxes fit together (`build_invariant`): levels are not mixed
among the children of a box, ids are well-founded and nobody has two parents, anonymous blocks are neither empty nor
neighbours, kinds and styles agree. And it loses nothing (`build_nodes`): without its anonymous blocks the box tree is the
document, as far as it is shown, minus the runs of collapsible white space beside a block.
-/

namespace ChromeLight

/-! ## The document as far as it is shown -/

/-- Operations that create an element and append it to a node. -/
def appendElement (parent : Nat) (id : Nat) (localName : String) : List Op :=
  [.create (.element ⟨⟨none, "", localName⟩, [], none⟩), .appendChild (.fromIndex parent) (.fromIndex id)]

namespace StyledDocument

variable (doc : StyledDocument)

/-- The node is text. -/
def isText (id : NodeId) : Bool :=
  match (doc.document.get id).map Node.kind with
  | some (.text _) => true
  | _ => false

/-- The style of an element that is styled and not `display: none`. -/
def shownStyle (id : NodeId) : Option LayoutStyle :=
  if (doc.document.element id).isSome then (doc.computed id).filter fun style => style.display ≠ .none else none

/-- The node is a line break. -/
def isBr (id : NodeId) : Bool := (doc.document.element id).any fun e => e.name.localName = "br"

/-- An element, not a `br`, whose own `display` is block. -/
def isBlockElement (id : NodeId) : Bool := (doc.shownStyle id).any (fun style => style.display = .block) && !doc.isBr id

/-- A node is block-level when it is a block element or has one below it. -/
def blockLevel (t : NodeId × Forest NodeId) : Bool := (t.1 :: t.2.preorder).any doc.isBlockElement

/-- A text node that collapses away under a container of that style. -/
def collapses (style : LayoutStyle) (t : NodeId × Forest NodeId) : Bool :=
  doc.isText t.1 && (style.whiteSpace = .normal && (BoxGen.textOf doc.document t.1).all isCollapsible)

/-- The children of a container without the runs of inline-level ones that collapse away beside a block-level one. -/
def dropWhitespace (style : LayoutStyle) (F : Forest NodeId) : Forest NodeId :=
  if F.trees.any doc.blockLevel then .ofTrees (Runs.drop doc.blockLevel (doc.collapses style) F.trees) else F

/-- The nodes of a forest that are shown: text, and styled elements that are not `display: none` with what is shown below
them, below a `br` nothing. -/
def shown : Forest NodeId → Forest NodeId
  | .nil => .nil
  | .cons id kids rest =>
    if doc.isText id then .cons id .nil (shown rest)
    else match doc.shownStyle id with
      | some style => .cons id (if doc.isBr id then .nil else doc.dropWhitespace style (shown kids)) (shown rest)
      | none => shown rest

/-- The document a run of operations leaves, with computed styles. -/
def ofOps (ops : List Op) (computed : NodeId → Option LayoutStyle) : StyledDocument where
  document := (Document.exec ops (Document.new "")).get <| by
    obtain ⟨document, kids, h, t⟩ := (Document.tree_new "").exec ops
    rw [h]
    trivial
  isTree := by
    obtain ⟨document, kids, h, t⟩ := (Document.tree_new "").exec ops
    exact ⟨kids, (Part.get_eq_of_mem (Part.eq_some_iff.1 h) _).symm ▸ t⟩
  computed := computed

end StyledDocument

/-- The nodes of the boxes of a forest; an anonymous block, which has none, is replaced by what is in it. -/
def BoxTree.nodesOf (tree : BoxTree) : Forest BoxId → Forest NodeId
  | .nil => .nil
  | .cons id kids rest =>
    match (tree.get id).bind LayoutBox.node with
    | some node => .cons node (tree.nodesOf kids) (tree.nodesOf rest)
    | none => tree.nodesOf kids ++ tree.nodesOf rest

/-- The child list of a box, none for an id that does not resolve. -/
def BoxTree.kids (tree : BoxTree) (id : BoxId) : List BoxId := ((tree.get id).map LayoutBox.children).getD []

/-- The children of a box. -/
theorem BoxTree.mem_kids {tree : BoxTree} {c p : BoxId} : c ∈ tree.kids p ↔ ∃ b, tree.get p = some b ∧ c ∈ b.children := by
  unfold BoxTree.kids
  cases tree.get p <;> simp

/-- The boxes of a tree fit together. -/
structure BoxTree.Invariant (document : Document) (tree : BoxTree) : Prop where
  /-- The children of a block are of one level. -/
  levels : ∀ id b, tree.get id = some b → b.kind = .block ∨ b.kind = .anonymousBlock →
    (∀ c ∈ b.children, ∃ d, tree.get c = some d ∧ BoxGen.isBlockLevel d.kind = true) ∨
    (∀ c ∈ b.children, ∃ d, tree.get c = some d ∧ BoxGen.isBlockLevel d.kind = false)
  inline : ∀ id b, tree.get id = some b → b.kind = .inline →
    ∀ c ∈ b.children, ∃ d, tree.get c = some d ∧ BoxGen.isBlockLevel d.kind = false
  leaf : ∀ id b, tree.get id = some b → (∃ n, b.kind = .inlineText n) ∨ b.kind = .lineBreak → b.children = []
  resolves : ∀ id b, tree.get id = some b → ∀ c ∈ b.children, c.index < id.index ∧ ∃ d, tree.get c = some d
  uniqueParents : Forest.UniqueParents tree.kids
  /-- An anonymous block is empty only as the root of the tree of a document without boxes. -/
  nonempty : ∀ id b, tree.get id = some b → b.kind = .anonymousBlock → b.children = [] → id = tree.root ∧ tree.len = 1
  apart : ∀ id b, tree.get id = some b → b.children.IsChain fun a c =>
    ¬((∃ d, tree.get a = some d ∧ d.kind = .anonymousBlock) ∧ ∃ d, tree.get c = some d ∧ d.kind = .anonymousBlock)
  /-- The box of an element that is no line break is a block or inline as its style says. -/
  display : ∀ id b n, tree.get id = some b → b.node = some n → (document.element n).isSome → b.kind ≠ .lineBreak →
    (b.kind = .block ↔ b.style.display = .block) ∧ (b.kind = .inline ↔ b.style.display = .inline)
  named : ∀ id b, tree.get id = some b → (b.node = none ↔ b.kind = .anonymousBlock)

namespace BoxGen

variable {Γ : FloatOps} {doc : StyledDocument}

/-! ## The recursion shows the document -/

/-- What a node becomes, in the terms of the document. -/
theorem classifyChild_eq (id : NodeId) (style : LayoutStyle) :
    classifyChild Γ doc id style =
      if doc.isText id then .leaf (.inlineText id) (.inheritedTextStyle Γ style)
      else match doc.shownStyle id with
        | none => .skip
        | some st =>
          if doc.isBr id then .leaf .lineBreak st
          else .container (if st.display = .block then .block else .inline) st := by
  unfold classifyChild StyledDocument.isText StyledDocument.shownStyle StyledDocument.isBr Document.element
  cases hg : doc.document.get id with
  | none => simp
  | some n =>
    cases hk : n.kind with
    | element e =>
      cases hc : doc.computed id with
      | none => simp [hk]
      | some st =>
        cases hd : st.display <;> simp [hk, hd, Option.filter]
    | _ => simp [hk]

/-- Text is no block. -/
theorem isBlockElement_of_isText {id : NodeId} (h : doc.isText id = true) : doc.isBlockElement id = false := by
  unfold StyledDocument.isText at h
  unfold StyledDocument.isBlockElement StyledDocument.shownStyle Document.element
  cases hg : doc.document.get id with
  | none => simp
  | some n =>
    rw [hg] at h
    cases hk : n.kind <;> simp [hk] at h ⊢

/-- The tree of a box is that of a node that is shown: with the same level, and collapsing alike. -/
structure ShowsNode (doc : StyledDocument) (style : LayoutStyle) (g : BoxData × Forest BoxData)
    (t : NodeId × Forest NodeId) : Prop where
  node : g.1.node = some t.1
  level : isBlockLevel g.1.kind = doc.blockLevel t
  collapses : BoxGen.collapses doc.document g.1 = doc.collapses style t
  leaf : doc.isText t.1 = true → t.2 = .nil

/-- The nodes of a forest of boxes, without its anonymous ones. -/
def named : Forest BoxData → Forest NodeId
  | .nil => .nil
  | .cons d kids rest =>
    match d.node with
    | some node => .cons node (named kids) (named rest)
    | none => named kids ++ named rest

/-- The nodes of two forests of boxes, side by side. -/
theorem named_append (F G : Forest BoxData) : named (F ++ G) = named F ++ named G := by
  induction F with
  | nil => rfl
  | cons d K R _ ih =>
    rw [Forest.cons_append, named, named, ih]
    cases d.node with
    | none => rw [Forest.append_assoc]
    | some node => rfl

/-- Box trees and shown trees correspond, and the nodes of the former are the latter. -/
def Matches (doc : StyledDocument) (style : LayoutStyle) (gs : List (BoxData × Forest BoxData))
    (ts : List (NodeId × Forest NodeId)) : Prop :=
  List.Forall₂ (fun g t => ShowsNode doc style g t ∧ named g.2 = t.2) gs ts

variable {style : LayoutStyle}

/-- What matches one after another matches side by side. -/
theorem Matches.append {gs gs' : List (BoxData × Forest BoxData)} {ts ts' : List (NodeId × Forest NodeId)}
    (h : Matches doc style gs ts) (h' : Matches doc style gs' ts') : Matches doc style (gs ++ gs') (ts ++ ts') :=
  List.rel_append h h'

/-- Boxes that match have the nodes they match. -/
theorem Matches.named_trees {F : Forest BoxData} {ts : List (NodeId × Forest NodeId)} (h : Matches doc style F.trees ts) :
    (named F).trees = ts := by
  induction F generalizing ts with
  | nil => cases h; rfl
  | cons d K R _ ih =>
    cases h with
    | cons ht hts =>
      rename_i t ts
      obtain ⟨hs, hn⟩ := ht
      rw [named, hs.node, Forest.trees, ih hts]
      exact congrArg (· :: ts) (Prod.ext rfl hn)

/-- Boxes that match have the levels of their nodes. -/
theorem Matches.any_level {F : Forest BoxData} {ts : List (NodeId × Forest NodeId)} (h : Matches doc style F.trees ts)
    (f : Bool → Bool) : F.roots.any (fun d => f (isBlockLevel d.kind)) = ts.any fun t => f (doc.blockLevel t) := by
  induction F generalizing ts with
  | nil => cases h; rfl
  | cons d K R _ ih =>
    cases h with
    | cons ht hts => rw [Forest.roots, List.any_cons, List.any_cons, ih hts, ht.1.level]

/-- Boxes that match collapse as their nodes do. -/
theorem Matches.all_collapses {F : Forest BoxData} {ts : List (NodeId × Forest NodeId)} (h : Matches doc style F.trees ts) :
    F.roots.all (BoxGen.collapses doc.document) = ts.all (doc.collapses style) := by
  induction F generalizing ts with
  | nil => cases h; rfl
  | cons d K R _ ih =>
    cases h with
    | cons ht hts => rw [Forest.roots, List.all_cons, List.all_cons, ih hts, ht.1.collapses]

/-- The end of a run of boxes is the end of a run of nodes. -/
theorem Matches.named_endRun {run : Forest BoxData} {rs : List (NodeId × Forest NodeId)} (h : Matches doc style run.trees rs)
    (style' : LayoutStyle) :
    (named (endRun Γ doc.document style' run)).trees = Runs.endRun (doc.collapses style) rs := by
  unfold endRun Runs.endRun
  rw [h.all_collapses]
  split
  · rfl
  · rw [named, named, Forest.append_nil, h.named_trees]

/-- The wrapping of boxes is the one pass that drops runs of nodes. -/
theorem Matches.named_wrapLoop (L : Forest BoxData) {ls : List (NodeId × Forest NodeId)} (run : Forest BoxData)
    {rs : List (NodeId × Forest NodeId)} (hL : Matches doc style L.trees ls) (hrun : Matches doc style run.trees rs)
    (style' : LayoutStyle) :
    (named (wrapLoop Γ doc.document style' run L)).trees = Runs.loop doc.blockLevel (doc.collapses style) rs ls := by
  induction L generalizing ls run rs with
  | nil =>
    cases hL
    rw [wrapLoop, Runs.loop]
    exact hrun.named_endRun style'
  | cons d K R _ ih =>
    cases hL with
    | cons ht hts =>
      rename_i t ts
      obtain ⟨hs, hn⟩ := ht
      rw [wrapLoop, Runs.loop, ← hs.level]
      cases hb : isBlockLevel d.kind with
      | true =>
        rw [if_pos rfl, if_pos rfl, named_append, Forest.trees_append, hrun.named_endRun, named, hs.node, Forest.trees,
          ih (.nil : Forest BoxData) hts List.Forall₂.nil]
        exact congrArg (fun t => _ ++ t :: _) (Prod.ext rfl hn)
      | false =>
        rw [if_neg (by simp), if_neg (by simp)]
        refine ih _ hts ?_
        rw [Forest.trees_append]
        exact hrun.append (List.Forall₂.cons ⟨hs, hn⟩ List.Forall₂.nil)

/-- What collapses away is not block-level. -/
theorem Matches.collapses_inline {F : Forest BoxData} {ts : List (NodeId × Forest NodeId)} (h : Matches doc style F.trees ts)
    {t : NodeId × Forest NodeId} (ht : t ∈ ts) (hc : doc.collapses style t = true) : doc.blockLevel t = false := by
  obtain ⟨g, -, hs, -⟩ : ∃ g ∈ F.trees, ShowsNode doc style g t ∧ named g.2 = t.2 := by
    obtain ⟨i, hi, rfl⟩ := List.mem_iff_getElem.1 ht
    have hlen := List.Forall₂.length_eq h
    exact ⟨F.trees.get ⟨i, hlen ▸ hi⟩, List.get_mem _ _, List.Forall₂.get h _ hi⟩
  have htext : doc.isText t.1 = true := by
    unfold StyledDocument.collapses at hc
    exact (Bool.and_eq_true_iff.1 hc).1
  unfold StyledDocument.blockLevel
  rw [hs.leaf htext]
  simp [Forest.preorder, isBlockElement_of_isText htext]

/-- Wrapping the boxes of a container's children is dropping the white space among its nodes. -/
theorem Matches.named_wrapForest {built : Forest BoxData} {F : Forest NodeId} (h : Matches doc style built.trees F.trees)
    (style' : LayoutStyle) : named (wrapForest Γ doc.document style' built) = doc.dropWhitespace style F := by
  have hmay : ∀ t ∈ F.trees, doc.blockLevel t = true → doc.collapses style t = false := by
    intro t ht hb
    by_contra hc
    rw [h.collapses_inline ht (by simpa using hc)] at hb
    cases hb
  have hloop := Runs.loop_eq_drop F.trees hmay
  have hnamed : named built = F := by
    rw [← Forest.ofTrees_trees (named built), h.named_trees, Forest.ofTrees_trees]
  have hblock := h.any_level (fun b => b)
  have hinline := h.any_level (fun b => !b)
  unfold wrapForest StyledDocument.dropWhitespace
  simp only [hblock, hinline]
  cases hb : F.trees.any fun t => doc.blockLevel t with
  | false => exact hnamed
  | true =>
    cases hi : F.trees.any fun t => !doc.blockLevel t with
    | false =>
      -- only block-level children: nothing to drop
      have hall : ∀ t ∈ F.trees, doc.blockLevel t = true ∧ doc.collapses style t = false := by
        intro t ht
        have := List.any_eq_false.1 hi t ht
        have hbt : doc.blockLevel t = true := by simpa using this
        exact ⟨hbt, hmay t ht hbt⟩
      rw [if_pos rfl, ← List.append_nil F.trees, ← (Runs.loop_eq_drop [] (by simp)).2 F.trees hall]
      simp only [Bool.and_false, Bool.false_eq_true, if_false, hnamed, Runs.loop, Runs.endRun, List.all_nil, if_true,
        List.append_nil, Forest.ofTrees_trees]
    | true =>
      have hrun := Matches.named_wrapLoop (Γ := Γ) built .nil h List.Forall₂.nil style'
      rw [hloop.1 [] (by simp), List.nil_append] at hrun
      simp only [Bool.and_self, if_true]
      rw [← hrun, Forest.ofTrees_trees]

/-- A node without the white space below it is block-level as before. -/
theorem any_dropWhitespace {F : Forest NodeId} (hinline : ∀ t ∈ F.trees, doc.collapses style t = true →
    doc.blockLevel t = false) :
    (doc.dropWhitespace style F).preorder.any doc.isBlockElement = F.preorder.any doc.isBlockElement := by
  have htrees : ∀ l : List (NodeId × Forest NodeId),
      (Forest.ofTrees l).preorder.any doc.isBlockElement = l.any doc.blockLevel := by
    intro l
    rw [Forest.preorder_ofTrees, List.any_flatMap]
    rfl
  unfold StyledDocument.dropWhitespace
  split
  · rename_i hb
    conv_rhs => rw [← Forest.ofTrees_trees F, htrees]
    rw [htrees, hb]
    obtain ⟨t, ht, hbt⟩ := List.any_eq_true.1 hb
    refine List.any_eq_true.2 ⟨t, Runs.mem_drop ht ?_, hbt⟩
    by_contra hc
    rw [hinline t ht (by simpa using hc)] at hbt
    cases hbt
  · rfl

/-- The recursion shows the document. -/
theorem gen_matches (D : Forest NodeId) (style : LayoutStyle) :
    Matches doc style (gen Γ doc style D).trees (doc.shown D).trees := by
  induction D generalizing style with
  | nil => exact List.Forall₂.nil
  | cons id K R ihK ihR =>
    rw [gen, StyledDocument.shown, classifyChild_eq]
    cases htext : doc.isText id with
    | true =>
      refine List.Forall₂.cons ⟨⟨rfl, ?_, ?_, fun _ => rfl⟩, rfl⟩ (ihR style)
      · simp [isBlockLevel, StyledDocument.blockLevel, Forest.preorder, isBlockElement_of_isText htext]
      · simp only [collapses, isCollapsibleText, StyledDocument.collapses, htext, Bool.true_and]
        rfl
    | false =>
      cases hst : doc.shownStyle id with
      | none => exact ihR style
      | some st =>
        cases hbr : doc.isBr id with
        | true =>
          refine List.Forall₂.cons ⟨⟨rfl, ?_, ?_, fun _ => rfl⟩, rfl⟩ (ihR style)
          · simp [isBlockLevel, StyledDocument.blockLevel, Forest.preorder, StyledDocument.isBlockElement, hbr]
          · simp [collapses, isCollapsibleText, StyledDocument.collapses, htext]
        | false =>
          have hK := ihK st
          have hinline : ∀ t ∈ (doc.shown K).trees, doc.collapses st t = true → doc.blockLevel t = false :=
            fun t ht hc => hK.collapses_inline ht hc
          have hroots : (gen Γ doc st K).roots.any (fun d => isBlockLevel d.kind)
              = (doc.shown K).preorder.any doc.isBlockElement := by
            rw [hK.any_level (fun b => b)]
            conv_rhs => rw [← Forest.ofTrees_trees (doc.shown K), Forest.preorder_ofTrees, List.any_flatMap]
            rfl
          refine List.Forall₂.cons ⟨⟨rfl, ?_, ?_, fun h => by simp [htext] at h⟩, hK.named_wrapForest _⟩ (ihR style)
          · simp only [StyledDocument.blockLevel, List.any_cons, Bool.false_eq_true, if_false, any_dropWhitespace hinline,
              StyledDocument.isBlockElement, hst, hbr, Option.any_some, Bool.not_false, Bool.and_true, finalForest, hroots]
            by_cases hd : st.display = .block
            · simp [hd, isBlockLevel]
            · cases h : (doc.shown K).preorder.any doc.isBlockElement <;> simp [hd, isBlockLevel]
          · simp only [collapses, isCollapsibleText, StyledDocument.collapses, htext, Bool.false_and]
            rcases finalForest_kind _ st (gen Γ doc st K) with h | h <;> rw [h]

/-! ## The whole tree -/

/-- The children of a document that is a tree. -/
theorem children_eq_kids {kids : NodeId → List NodeId} (t : doc.document.Tree kids) : doc.document.children = kids :=
  funext t.children_eq

/-- The walk from the root element ends with its box, around the boxes of the recursion, in an arena of good boxes made
bottom-up. -/
theorem build_shows {root : NodeId} (hroot : rootElement doc.document = some root)
    (hshown : (rootStyle Γ doc root).display ≠ .none) :
    ∃ tree D, build Γ doc = .some tree ∧ D.roots = doc.document.children root ∧ D.Follows doc.document.children ∧
      Forest.Shows (entry tree.boxes) [tree.root] (containerForest Γ doc.document root (containerKind (rootStyle Γ doc root))
        (rootStyle Γ doc root) (gen Γ doc (rootStyle Γ doc root) D) .nil) ∧
      AllGood doc.document tree.boxes ∧ Arena.BottomUp (kidsOf tree.boxes) [tree.root.index] ∧
      ¬isAnonymous tree.boxes tree.root := by
  obtain ⟨kids, t⟩ := doc.isTree
  obtain ⟨D, hD, hF⟩ := Forest.exists_follows t.wf (kids root)
  set style := rootStyle Γ doc root with hstyle
  let frame : Frame :=
    { node := root, style, kind := containerKind style, children := doc.document.children root, built := [] }
  obtain ⟨ids, more, hs, hshow⟩ := build_forest (Γ := Γ) t D hF frame (by rw [hD]; exact t.children_eq root) [] []
  let done : Frame := { frame with children := [], built := ids }
  have hinv : BuildInv doc.document { stack := [done], boxes := more } := by
    refine hs.invariant (I := BuildInv doc.document) (fun s s' h hb => h.step (buildStep_inl.1 hb)) ?_
    refine ⟨by simp [AllGood], Arena.BottomUp.nil, ?_⟩
    intro f hf
    obtain rfl := List.mem_singleton.1 hf
    refine ⟨?_, ?_, by simp [frame]⟩
    · cases hd : style.display <;> simp_all [frame, containerKind]
    · cases hd : style.display <;> simp_all [frame, containerKind]
  have hgood := hinv.frames done List.mem_cons_self
  obtain ⟨hall, hpending, hnamed⟩ := finishFrame_good Γ [] hgood hinv.good (by simpa using hinv.pending)
  refine ⟨{ boxes := (finishFrame Γ doc.document done more).2, root := (finishFrame Γ doc.document done more).1 }, D, ?_,
    by rw [hD, t.children_eq], by rwa [children_eq_kids t],
    finishFrame_shows Γ doc.document (show Forest.Shows _ done.built _ from hshow), hall, hpending, hnamed⟩
  unfold build
  rw [hroot]
  simp only [← hstyle, hshown, if_false]
  refine hs.loop_eq.trans (While.loop_inr ?_)
  simp only [buildStep, finishFrame]
  rfl

/-- The nodes of a forest of ids. -/
theorem nodesOf_eq {tree : BoxTree} (F : Forest BoxId) (G : Forest BoxData)
    (h : F.map (fun id => (entry tree.boxes id).map Prod.fst) = G.map some) : tree.nodesOf F = named G := by
  induction F generalizing G with
  | nil =>
    cases G with
    | nil => rfl
    | cons d L S => cases h
  | cons id K R ihK ihR =>
    cases G with
    | nil => cases h
    | cons d L S =>
      obtain ⟨he, hK, hR⟩ := Forest.cons.inj h
      rw [BoxTree.nodesOf, named, ihK L hK, ihR S hR]
      obtain ⟨x, hx, rfl⟩ := Option.map_eq_some_iff.1 he
      obtain ⟨b, hb, rfl⟩ := Option.map_eq_some_iff.1 hx
      rw [BoxTree.get, hb]
      rfl

/-- The nodes of a forest of ids, in order. -/
theorem preorder_nodesOf (tree : BoxTree) (F : Forest BoxId) :
    F.preorder.filterMap (fun id => (tree.get id).bind LayoutBox.node) = (tree.nodesOf F).preorder := by
  induction F with
  | nil => rfl
  | cons id K R ihK ihR =>
    rw [Forest.preorder, List.filterMap_cons, List.filterMap_append, ihK, ihR, BoxTree.nodesOf]
    cases (tree.get id).bind LayoutBox.node with
    | none => rw [Forest.preorder_append]
    | some node => rfl

/-- Dropping white space keeps the order of the rest. -/
theorem dropWhitespace_sublist (style : LayoutStyle) (F : Forest NodeId) :
    (doc.dropWhitespace style F).preorder.Sublist F.preorder := by
  unfold StyledDocument.dropWhitespace
  split
  · conv_rhs => rw [← Forest.ofTrees_trees F]
    rw [Forest.preorder_ofTrees, Forest.preorder_ofTrees]
    exact (Runs.drop_sublist _).flatMap _
  · exact List.Sublist.refl _

/-- What is shown comes in document order. -/
theorem shown_sublist (D : Forest NodeId) : (doc.shown D).preorder.Sublist D.preorder := by
  induction D with
  | nil => exact List.Sublist.refl _
  | cons id K R ihK ihR =>
    rw [StyledDocument.shown]
    split
    · exact (ihR.trans (List.sublist_append_right _ _)).cons_cons id
    · cases doc.shownStyle id with
      | none => exact (ihR.trans (List.sublist_append_right _ _)).cons id
      | some style =>
        refine List.Sublist.cons_cons id (List.Sublist.append ?_ ihR)
        split
        · exact List.nil_sublist _
        · exact (dropWhitespace_sublist style _).trans ihK

/-- The children of a box, by its entry. -/
theorem kids_entry (tree : BoxTree) : (fun id => ((entry tree.boxes id).map Prod.snd).getD []) = tree.kids := by
  funext id
  simp only [entry, BoxTree.kids, BoxTree.get, Option.map_map]
  rfl

/-- Box generation loses, duplicates and reorders nothing: read without its anonymous blocks, the box tree is the root
element with what is shown of the document below it, minus the runs of collapsible white space beside a block. -/
theorem build_nodes (Γ : FloatOps) (doc : StyledDocument) {root : NodeId} (hroot : rootElement doc.document = some root)
    (hshown : (rootStyle Γ doc root).display ≠ .none) :
    ∃ tree F D, build Γ doc = .some tree ∧ F.roots = [tree.root] ∧ F.Follows tree.kids ∧
      D.roots = doc.document.children root ∧ D.Follows doc.document.children ∧
      tree.nodesOf F = .cons root (doc.dropWhitespace (rootStyle Γ doc root) (doc.shown D)) .nil ∧
      F.preorder.filterMap (fun id => (tree.get id).bind LayoutBox.node)
        = root :: (doc.dropWhitespace (rootStyle Γ doc root) (doc.shown D)).preorder ∧
      (∀ id b, tree.get id = some b → (b.node = none ↔ b.kind = .anonymousBlock)) ∧
      (root :: (doc.dropWhitespace (rootStyle Γ doc root) (doc.shown D)).preorder).Sublist (root :: D.preorder) ∧
      (root :: D.preorder).Nodup := by
  obtain ⟨tree, D, hb, hD, hF, hshows, hgood, -, -⟩ := build_shows (Γ := Γ) hroot hshown
  obtain ⟨F, hroots, hfollows, hmap⟩ := hshows.exists_forest
  have hnodes : tree.nodesOf F = .cons root (doc.dropWhitespace (rootStyle Γ doc root) (doc.shown D)) .nil := by
    rw [nodesOf_eq F _ hmap, containerForest, named, (gen_matches D _).named_wrapForest]
    rfl
  refine ⟨tree, F, D, hb, hroots, kids_entry tree ▸ hfollows, hD, hF, hnodes, ?_, ?_, ?_, ?_⟩
  · rw [preorder_nodesOf, hnodes, Forest.preorder, Forest.preorder, List.append_nil]
  · intro id b hg
    exact (hgood b (List.mem_of_getElem? hg)).named
  · exact ((dropWhitespace_sublist _ _).trans (shown_sublist D)).cons_cons root
  · obtain ⟨kids, t⟩ := doc.isTree
    rw [children_eq_kids t] at hD hF
    have hall : (Forest.cons root D .nil).Follows kids := ⟨hD, hF, trivial⟩
    have := hall.nodup_singleton t.represents.uniqueParents t.wf rfl
    simpa [Forest.preorder] using this

/-- `html` with a text, a paragraph that has a text in it, and a blank after the paragraph. -/
def textAndParagraph : StyledDocument :=
  .ofOps (appendElement 0 1 "html" ++ [.create (.text ['a']), .appendChild (.fromIndex 1) (.fromIndex 2)] ++
      appendElement 1 3 "p" ++ [.create (.text ['b']), .appendChild (.fromIndex 3) (.fromIndex 4)] ++
      [.create (.text [' ']), .appendChild (.fromIndex 1) (.fromIndex 5)])
    fun _ => some { LayoutStyle.initial .sample with display := .block }

/-- The nodes below its root. -/
def textAndParagraphNodes : Forest NodeId :=
  .cons (.fromIndex 2) .nil (.cons (.fromIndex 3) (.cons (.fromIndex 4) .nil .nil) (.cons (.fromIndex 5) .nil .nil))

/-- The nodes of the sample are its children. -/
theorem textAndParagraphNodes_follows : textAndParagraphNodes.Follows textAndParagraph.document.children :=
  ⟨by decide, trivial, by decide, ⟨by decide, trivial, trivial⟩, by decide, trivial, trivial⟩

/-- The box tree of that document has the text, in an anonymous block, and the paragraph with its text; the blank is dropped. -/
theorem build_nodes_textAndParagraph : ∃ tree F, build .sample textAndParagraph = .some tree ∧ F.roots = [tree.root] ∧
    F.Follows tree.kids ∧ tree.nodesOf F =
      .cons (.fromIndex 1) (.cons (.fromIndex 2) .nil (.cons (.fromIndex 3) (.cons (.fromIndex 4) .nil .nil) .nil)) .nil := by
  obtain ⟨tree, F, D, hb, hroots, hfollows, hD, hDfollows, hnodes, -⟩ :=
    build_nodes .sample textAndParagraph (show rootElement textAndParagraph.document = some (.fromIndex 1) by decide)
      (by decide)
  obtain rfl := hDfollows.unique textAndParagraphNodes_follows (hD.trans (by decide))
  refine ⟨tree, F, hb, hroots, hfollows, hnodes.trans ?_⟩
  decide

/-! ## The invariant -/

/-- Good boxes in one tree keep the invariant. -/
theorem invariant_of_good {document : Document} {tree : BoxTree} (hgood : AllGood document tree.boxes)
    (hpending : Arena.BottomUp (kidsOf tree.boxes) [tree.root.index]) : tree.Invariant document := by
  have good : ∀ {id b}, tree.get id = some b → GoodBox document tree.boxes b :=
    fun hg => hgood _ (List.mem_of_getElem? hg)
  have kids_at : ∀ {id b}, tree.get id = some b → (kidsOf tree.boxes)[id.index]? = some (b.children.map BoxId.index) := by
    intro id b hg
    rw [kidsOf, List.getElem?_map]
    exact congrArg (Option.map _) hg
  have index_inj : ∀ a b : BoxId, a.index = b.index → a = b := by
    rintro ⟨a⟩ ⟨b⟩ rfl
    rfl
  refine ⟨?_, ?_, fun id b hg => (good hg).leaf, ?_, ⟨?_, ?_⟩, ?_, fun id b hg => (good hg).apart, ?_, ?_⟩
  · intro id b hg hk
    exact (good hg).levels hk |>.imp (fun h c hc => hasLevel_iff.1 (h c hc)) (fun h c hc => hasLevel_iff.1 (h c hc))
  · intro id b hg hk c hc
    exact hasLevel_iff.1 ((good hg).inline hk c hc)
  · intro id b hg c hc
    refine ⟨hpending.smaller _ _ (kids_at hg) _ (List.mem_map_of_mem hc), ?_⟩
    exact ⟨_, List.getElem?_eq_getElem ((good hg).resolved c hc)⟩
  · intro c p q hp hq
    obtain ⟨b, hb, hcb⟩ := BoxTree.mem_kids.1 hp
    obtain ⟨d, hd, hcd⟩ := BoxTree.mem_kids.1 hq
    exact index_inj _ _
      (hpending.unique (kids_at hb) (kids_at hd) (List.mem_map_of_mem hcb) (List.mem_map_of_mem hcd))
  · intro p
    unfold BoxTree.kids
    cases hg : tree.get p with
    | none => exact List.nodup_nil
    | some b => exact List.Nodup.of_map _ (hpending.nodup (kids_at hg))
  · intro id b hg hk hnil
    exact absurd hnil ((good hg).nonempty hk)
  · intro id b n hg
    exact (good hg).display n
  · intro id b hg
    exact (good hg).named

/-- The tree of a document without a box. -/
theorem emptyTree_invariant (Γ : FloatOps) (document : Document) : (emptyTree Γ []).Invariant document := by
  have hget : ∀ id b, (emptyTree Γ []).get id = some b → id = ⟨0⟩ ∧ b = ⟨none, .anonymousBlock, .initial Γ, []⟩ := by
    rintro ⟨i⟩ b hg
    obtain ⟨hi, hb⟩ := List.getElem?_eq_some_iff.1 hg
    obtain rfl : i = 0 := Nat.lt_one_iff.1 hi
    exact ⟨rfl, hb.symm⟩
  have hkids : ∀ p, (emptyTree Γ []).kids p = [] := by
    intro p
    unfold BoxTree.kids
    cases hg : (emptyTree Γ []).get p with
    | none => rfl
    | some b => rw [(hget p b hg).2]; rfl
  refine ⟨?_, ?_, ?_, ?_, ⟨?_, ?_⟩, ?_, ?_, ?_, ?_⟩
  all_goals first | (intro id b hg; obtain ⟨rfl, rfl⟩ := hget _ _ hg) | skip
  · simp
  · simp
  · simp
  · simp
  · intro c p q hp
    rw [hkids] at hp
    cases hp
  · intro p
    rw [hkids]
    exact List.nodup_nil
  · exact fun _ _ => ⟨rfl, rfl⟩
  · exact List.isChain_nil
  · rintro id b n hg hn
    obtain ⟨rfl, rfl⟩ := hget _ _ hg
    cases hn
  · simp

/-- Box generation returns the tree of a document without a box, or a tree of good boxes made bottom-up. -/
theorem build_cases (Γ : FloatOps) (doc : StyledDocument) :
    build Γ doc = .some (emptyTree Γ []) ∨ ∃ tree, build Γ doc = .some tree ∧ AllGood doc.document tree.boxes ∧
      Arena.BottomUp (kidsOf tree.boxes) [tree.root.index] := by
  unfold build
  cases hroot : rootElement doc.document with
  | none => exact .inl rfl
  | some root =>
    by_cases hshown : (rootStyle Γ doc root).display = .none
    · exact .inl (by simp only [hshown, if_true])
    · obtain ⟨tree, D, hb, -, -, -, hgood, hpending, -⟩ := build_shows (Γ := Γ) hroot hshown
      refine .inr ⟨tree, ?_, hgood, hpending⟩
      rw [build, hroot] at hb
      exact hb

/-- The box tree of a document whose walk returns within `n` iterations. -/
theorem build_of_run {Γ : FloatOps} {doc : StyledDocument} {tree : BoxTree} (n : Nat) (root : NodeId)
    (hroot : rootElement doc.document = some root) (hshown : (rootStyle Γ doc root).display ≠ .none)
    (h : While.run (buildStep Γ doc) n
      { stack := [⟨root, rootStyle Γ doc root, containerKind (rootStyle Γ doc root), doc.document.children root, []⟩]
        boxes := [] } = some tree) : build Γ doc = .some tree := by
  unfold build
  simp only [hroot, if_neg hshown]
  exact While.loop_of_run h

/-- Every box tree that is built keeps the invariant. -/
theorem invariant_of_build {Γ : FloatOps} {doc : StyledDocument} {tree : BoxTree} (h : build Γ doc = .some tree) :
    tree.Invariant doc.document := by
  rcases build_cases Γ doc with hb | ⟨tree', hb, hgood, hpending⟩
  · obtain rfl := Part.some_injective (hb.symm.trans h)
    exact emptyTree_invariant Γ doc.document
  · obtain rfl := Part.some_injective (hb.symm.trans h)
    exact invariant_of_good hgood hpending

/-- The boxes of the tree of any styled document fit together. -/
theorem build_invariant (Γ : FloatOps) (doc : StyledDocument) :
    ∃ tree, build Γ doc = .some tree ∧ tree.Invariant doc.document := by
  rcases build_cases Γ doc with h | ⟨tree, h, -⟩
  · exact ⟨_, h, invariant_of_build h⟩
  · exact ⟨_, h, invariant_of_build h⟩

end BoxGen

end ChromeLight
