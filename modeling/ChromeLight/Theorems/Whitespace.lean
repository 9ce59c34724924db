import ChromeLight.Inline
import ChromeLight.Lib.Collapse
import ChromeLight.Theorems.BoxTree

/-!
# White space does not depend on how text is split

The inline content of a block is a forest of text nodes, forced breaks and nested inline boxes. Its text is processed node by
node with one flag threaded through, which tells each node whether the text before it leaves a run of collapsible characters
open. What comes out between two breaks is the collapse of the source text between them as a whole
(`collectPieces_collapse`), and so does not depend on the nodes and boxes that text is split into.
-/

namespace ChromeLight

open Collapse (collapse continued isOpen)

namespace Whitespace

/-! ## One text node -/

/-- What the loop over the characters will have emitted and will answer, from one of its states on. -/
theorem foldl_normalStep (text : StrTendril) (s : NormalState) :
    let t := text.foldl normalStep s
    (if t.inSpaceRun && !t.suppress then { text := t.out ++ [' '], suppressNextSpace := true }
      else { text := t.out, suppressNextSpace := t.suppress } : Processed) =
    { text := s.out ++ if s.inSpaceRun && !s.suppress then ' ' :: continued isCollapsible ' ' true text
        else continued isCollapsible ' ' s.suppress text
      suppressNextSpace := (text.getLast?.map isCollapsible).getD (s.suppress || s.inSpaceRun) } := by
  induction text generalizing s with
  | nil =>
    obtain ⟨out, suppress, inSpaceRun⟩ := s
    cases suppress <;> cases inSpaceRun <;> simp [continued]
  | cons c text ih =>
    obtain ⟨out, suppress, inSpaceRun⟩ := s
    simp only [List.foldl_cons]
    refine (ih _).trans ?_
    have hlast : ((c :: text).getLast?.map isCollapsible) = some ((text.getLast?.map isCollapsible).getD (isCollapsible c)) := by
      rw [List.getLast?_cons]
      cases text.getLast? <;> rfl
    rw [hlast]
    cases hc : isCollapsible c with
    | true =>
      -- the run goes on, or starts here
      cases suppress <;> cases inSpaceRun <;>
        simp [normalStep, continued, hc, Collapse.squeeze_cons_of_pos]
    | false =>
      -- the run before the character ends
      cases suppress <;> cases inSpaceRun <;>
        simp [normalStep, continued, hc, Collapse.squeeze_cons_of_neg]

/-- A text node adds to the collapse of what comes before it. -/
theorem processNormal_eq (text : StrTendril) (suppress : Bool) :
    processNormal text suppress =
      { text := continued isCollapsible ' ' suppress text
        suppressNextSpace := (text.getLast?.map isCollapsible).getD suppress } := by
  have h := foldl_normalStep text { out := [], suppress, inSpaceRun := false }
  simp only [Bool.false_and, Bool.false_eq_true, if_false, List.nil_append, Bool.or_false] at h
  exact h

end Whitespace

namespace Inline

/-! ## Segments -/

/-- The text between the breaks of some items: before the first break, between the first and the second, and so on. -/
def segments : List InlineItem → List StrTendril
  | [] => [[]]
  | .text text _ _ :: items => (segments items).modifyHead (text ++ ·)
  | .lineBreak :: items => [] :: segments items

/-- What an inline-level box contributes before its white space is processed. -/
def sourceItem (tree : BoxTree) (document : Document) (id : BoxId) : Option InlineItem :=
  match tree.get id with
  | none => none
  | some b =>
    match b.kind with
    | .inlineText node => some (.text (BoxGen.textOf document node) b.style node)
    | .lineBreak => some .lineBreak
    | .inline | .anonymousInline | .block | .anonymousBlock => none

/-- The source text and the breaks of some inline content, in document order. -/
def sourceItems (tree : BoxTree) (document : Document) (content : Forest BoxId) : List InlineItem :=
  content.preorder.filterMap (sourceItem tree document)

/-- A text node, a break, or an inline box. -/
def IsInlineBox (b : LayoutBox) : Prop :=
  match b.kind with
  | .inlineText _ | .lineBreak => b.children = []
  | .inline | .anonymousInline => True
  | .block | .anonymousBlock => False

/-- Boxes of a tree that are the inline content of a block: text nodes, breaks and nested inline boxes. -/
structure InlineContent (tree : BoxTree) (content : Forest BoxId) : Prop where
  follows : content.Follows tree.kids
  nodup : content.preorder.Nodup
  boxes : ∀ id ∈ content.preorder, ∃ b, tree.get id = some b ∧ IsInlineBox b

/-- The pieces of a block's inline content. -/
def pieces (tree : BoxTree) (document : Document) (content : Forest BoxId) : List InlineItem :=
  collectPieces tree document tree.len content.roots true

/-- The items with their white space processed, the flag threaded through them. -/
def processed : Bool → List InlineItem → List InlineItem
  | _, [] => []
  | suppress, .text text style node :: items =>
    let p := Whitespace.process text style.whiteSpace suppress
    .text p.text style node :: processed p.suppressNextSpace items
  | _, .lineBreak :: items => .lineBreak :: processed true items

variable {tree : BoxTree} {document : Document}

/-! ## The walk over nested boxes -/

/-- A walk with a counter that covers the content processes its source in document order. -/
theorem collectPieces_eq {remaining : Nat} {content : Forest BoxId} (hF : content.Follows tree.kids)
    (hb : ∀ id ∈ content.preorder, ∃ b, tree.get id = some b ∧ IsInlineBox b) (hr : content.size ≤ remaining)
    (suppress : Bool) :
    collectPieces tree document remaining content.roots suppress = processed suppress (sourceItems tree document content) := by
  induction remaining generalizing content suppress with
  | zero =>
    cases content with
    | nil => rfl
    | cons id K R => simp [Forest.size] at hr
  | succ remaining ih =>
    cases content with
    | nil => rfl
    | cons id K R =>
      obtain ⟨b, hg, hkind⟩ := hb id List.mem_cons_self
      obtain ⟨hK, hFK, hFR⟩ := hF
      have hkids : K.roots = b.children := by rw [hK, BoxTree.kids, hg]; rfl
      have hbR : ∀ id ∈ R.preorder, ∃ b, tree.get id = some b ∧ IsInlineBox b := fun x hx =>
        hb x (List.mem_cons_of_mem _ (List.mem_append_right _ hx))
      have hrR : R.size ≤ remaining := by simp only [Forest.size] at hr; omega
      -- the children of an inline box take its place on the stack
      have nested : sourceItem tree document id = none →
          collectPieces tree document (remaining + 1) (id :: R.roots) suppress
            = collectPieces tree document remaining (b.children ++ R.roots) suppress →
          collectPieces tree document (remaining + 1) (id :: R.roots) suppress
            = processed suppress (sourceItems tree document (.cons id K R)) := by
        intro hsource hstep
        have hKR := ih (hFK.append hFR) (fun x hx => hb x (List.mem_cons_of_mem _ (by simpa using hx)))
          (by rw [Forest.size_append]; simp only [Forest.size] at hr; omega) suppress
        rw [hstep, ← hkids, ← Forest.roots_append, hKR]
        simp only [sourceItems, Forest.preorder, List.filterMap_cons, hsource, Forest.preorder_append]
      obtain ⟨node, kind, style, children⟩ := b
      cases kind with
      | inlineText text =>
        obtain rfl : K = .nil := Forest.roots_eq_nil.1 (hkids.trans hkind)
        simp only [sourceItems, Forest.preorder, Forest.roots, collectPieces, sourceItem, hg, List.filterMap_cons, processed,
          List.nil_append]
        exact congrArg _ (ih hFR hbR hrR _)
      | lineBreak =>
        obtain rfl : K = .nil := Forest.roots_eq_nil.1 (hkids.trans hkind)
        simp only [sourceItems, Forest.preorder, Forest.roots, collectPieces, sourceItem, hg, List.filterMap_cons, processed,
          List.nil_append]
        exact congrArg _ (ih hFR hbR hrR _)
      | inline => exact nested (by simp only [sourceItem, hg]) (by simp only [collectPieces, hg])
      | anonymousInline => exact nested (by simp only [sourceItem, hg]) (by simp only [collectPieces, hg])
      | block => exact hkind.elim
      | anonymousBlock => exact hkind.elim

/-- The pieces of inline content are its source, processed item by item. -/
theorem pieces_eq {content : Forest BoxId} (h : InlineContent tree content) :
    pieces tree document content = processed true (sourceItems tree document content) := by
  refine collectPieces_eq h.follows h.boxes ?_ true
  refine Forest.size_le_of_nodup h.nodup BoxId.index (fun a b hab => by cases a; cases b; exact congrArg _ hab) fun id hid => ?_
  obtain ⟨b, hg, -⟩ := h.boxes id hid
  exact (List.getElem?_eq_some_iff.1 hg).1

/-! ## Segment by segment -/

/-- Processing items after some text of the segment collapses what is left of that segment and every later one. -/
theorem segments_processed {items : List InlineItem}
    (hn : ∀ text style node, .text text style node ∈ items → style.whiteSpace = .normal) (before : StrTendril) :
    (segments (processed (isOpen isCollapsible before) items)).modifyHead (collapse isCollapsible ' ' before ++ ·) =
      ((segments items).modifyHead (before ++ ·)).map (collapse isCollapsible ' ') := by
  induction items generalizing before with
  | nil => simp [processed, segments]
  | cons item items ih =>
    have ih := ih fun text style node hm => hn text style node (List.mem_cons_of_mem _ hm)
    cases item with
    | text text style node =>
      have hmode := hn text style node List.mem_cons_self
      have hopen : (text.getLast?.map isCollapsible).getD (isOpen isCollapsible before)
          = isOpen isCollapsible (before ++ text) := (Collapse.isOpen_append before text).symm
      have h := ih (before ++ text)
      rw [Collapse.collapse_append] at h
      simp only [processed, segments, Whitespace.process, hmode, Whitespace.processNormal_eq, hopen, List.modifyHead_modifyHead,
        Function.comp_def, ← List.append_assoc]
      exact h
    | lineBreak =>
      have h := ih []
      have hid : ∀ l : List StrTendril, l.modifyHead (fun x => x) = l := fun l => by cases l <;> rfl
      simp only [processed, segments, List.modifyHead_cons, List.map_cons, List.append_nil]
      refine congrArg _ ?_
      simpa [Collapse.collapse, isOpen, hid] using h

/-- Inline content all of whose text is collapsible. -/
structure CollapsibleContent (tree : BoxTree) (document : Document) (content : Forest BoxId) : Prop
    extends InlineContent tree content where
  normal : ∀ text style node, .text text style node ∈ sourceItems tree document content → style.whiteSpace = .normal

/-- What a collapsed text is to its source. -/
structure Collapsed (source text : StrTendril) : Prop where
  start : ∀ c ∈ text.head?, isCollapsible c = false
  noTwo : text.IsChain fun a b => ¬(isCollapsible a = true ∧ isCollapsible b = true)
  others : text.filter (fun c => !isCollapsible c) = source.filter fun c => !isCollapsible c

theorem segments_pieces {content : Forest BoxId} (h : CollapsibleContent tree document content) :
    segments (pieces tree document content) = (segments (sourceItems tree document content)).map (collapse isCollapsible ' ') := by
  have hseg := segments_processed h.normal []
  have hid : ∀ l : List StrTendril, l.modifyHead (fun x => x) = l := fun l => by cases l <;> rfl
  rw [pieces_eq h.toInlineContent]
  simpa [Collapse.collapse, isOpen, hid] using hseg

theorem collapsed_collapse (source : StrTendril) : Collapsed source (collapse isCollapsible ' ' source) where
  start := Collapse.head?_collapse source
  noTwo := Collapse.isChain_collapse source
  others := Collapse.filter_collapse (by decide) source

/-- Between two breaks, the pieces of collapsible inline content are the collapse of the source text between them; so they are
the same however that text is split into nodes and boxes, start with no space, have no two spaces next to each other, and
keep every other character in order. -/
theorem collectPieces_collapse {content : Forest BoxId} (h : CollapsibleContent tree document content) :
    segments (pieces tree document content)
      = (segments (sourceItems tree document content)).map (collapse isCollapsible ' ') ∧
    (∀ (tree' : BoxTree) (document' : Document) (content' : Forest BoxId), CollapsibleContent tree' document' content' →
      segments (sourceItems tree' document' content') = segments (sourceItems tree document content) →
      segments (pieces tree' document' content') = segments (pieces tree document content)) ∧
    List.Forall₂ Collapsed (segments (sourceItems tree document content)) (segments (pieces tree document content)) := by
  refine ⟨segments_pieces h, fun tree' document' content' h' hsame => ?_, ?_⟩
  · rw [segments_pieces h, segments_pieces h', hsame]
  · rw [segments_pieces h, List.forall₂_map_right_iff]
    exact List.forall₂_same.2 fun source _ => collapsed_collapse source

/-- A text node, and an inline box with a text node and a break in it. -/
def splitTree : BoxTree where
  boxes :=
    [⟨some (.fromIndex 1), .inlineText (.fromIndex 1), .initial .sample, []⟩,
      ⟨some (.fromIndex 2), .inlineText (.fromIndex 2), .initial .sample, []⟩,
      ⟨some (.fromIndex 3), .lineBreak, .initial .sample, []⟩,
      ⟨some (.fromIndex 4), .inline, .initial .sample, [⟨1⟩, ⟨2⟩]⟩]
  root := ⟨3⟩

def splitDocument : Document where
  nodes := [{ kind := .document }, { kind := .text "a ".toList }, { kind := .text " b".toList }, { kind := .comment [] },
    { kind := .comment [] }]
  quirks := .noQuirks
  baseUrl := ""

def splitContent : Forest BoxId := .cons ⟨0⟩ .nil (.cons ⟨3⟩ (.cons ⟨1⟩ .nil (.cons ⟨2⟩ .nil .nil)) .nil)

/-- A space on both sides of the boundary between two nodes comes out once. -/
theorem collectPieces_collapse_split :
    segments (pieces splitTree splitDocument splitContent) = [collapse isCollapsible ' ' "a  b".toList, []] := by
  have h : CollapsibleContent splitTree splitDocument splitContent := by
    refine ⟨⟨⟨rfl, trivial, rfl, ⟨rfl, trivial, rfl, trivial, trivial⟩, trivial⟩, by decide, ?_⟩, fun text style node hm => ?_⟩
    · show ∀ id ∈ [(⟨0⟩ : BoxId), ⟨3⟩, ⟨1⟩, ⟨2⟩], ∃ b, splitTree.get id = some b ∧ IsInlineBox b
      simp only [List.forall_mem_cons, List.not_mem_nil, false_implies, implies_true, and_true]
      exact ⟨⟨_, rfl, rfl⟩, ⟨_, rfl, trivial⟩, ⟨_, rfl, rfl⟩, ⟨_, rfl, rfl⟩⟩
    · have hitems : sourceItems splitTree splitDocument splitContent = [.text "a ".toList (.initial .sample) (.fromIndex 1),
          .text " b".toList (.initial .sample) (.fromIndex 2), .lineBreak] := rfl
      rw [hitems] at hm
      simp only [List.mem_cons, InlineItem.text.injEq, reduceCtorEq, List.not_mem_nil, or_false] at hm
      rcases hm with ⟨-, rfl, -⟩ | ⟨-, rfl, -⟩ <;> rfl
  exact (collectPieces_collapse h).1

end Inline

end ChromeLight
