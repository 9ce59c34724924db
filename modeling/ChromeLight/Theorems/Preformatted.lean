import ChromeLight.Theorems.Whitespace

/-!
# A line break split between two text nodes

Preformatted text keeps its white space, only the three spellings of a line break become one newline each. The code does so
within each text node, and whether the last character was a carriage return is forgotten between two of them. So a pair of a
carriage return and a line feed comes out as two newlines if a node ends between them, and what comes out is independent of
how the text is split into nodes exactly if none does (`preformatted_iff`).
-/

namespace ChromeLight

namespace Whitespace

/-- Every pair of a carriage return and a line feed, every other carriage return and every other line feed as one newline. -/
def newlines : StrTendril → StrTendril
  | [] => []
  | [c] => [if c = '\r' then '\n' else c]
  | c :: d :: text =>
    if c = '\r' ∧ d = '\n' then '\n' :: newlines text else (if c = '\r' then '\n' else c) :: newlines (d :: text)

/-- What the loop emits for a text, after a carriage return or not. -/
def emitted : Bool → StrTendril → StrTendril
  | _, [] => []
  | afterCr, c :: text =>
    if c = '\r' then '\n' :: emitted true text
    else if c = '\n' ∧ afterCr then emitted false text
    else c :: emitted false text

/-- Whether the text, after what comes before it, ends in a carriage return. -/
def endsInCr (afterCr : Bool) (text : StrTendril) : Bool := (text.getLast?.map (· == '\r')).getD afterCr

/-- What one character emits. -/
theorem emitted_cons (afterCr : Bool) (c : Char) (text : StrTendril) : emitted afterCr (c :: text) =
    if c = '\r' then '\n' :: emitted true text
    else if c = '\n' ∧ afterCr then emitted false text
    else c :: emitted false text := rfl

/-- The loop emits what it should, character by character. -/
theorem foldl_segmentBreakStep (text : StrTendril) (s : StrTendril × Bool) :
    text.foldl segmentBreakStep s = (s.1 ++ emitted s.2 text, if text = [] then s.2 else endsInCr false text) := by
  induction text generalizing s with
  | nil => simp [emitted]
  | cons c text ih =>
    have hlast : endsInCr false (c :: text) = if text = [] then c == '\r' else endsInCr false text := by
      cases text with
      | nil => simp [endsInCr]
      | cons d text => simp [endsInCr, List.getLast?_cons_cons]
    rw [List.foldl_cons, ih, emitted_cons, if_neg (List.cons_ne_nil c text), hlast, segmentBreakStep]
    by_cases hcr : c = '\r'
    · simp [hcr]
    · by_cases hlf : c = '\n' ∧ s.2 = true
      · simp [hlf]
      · by_cases htext : text = [] <;> simp [hcr, hlf, htext]

/-- The loop over one text. -/
theorem normalizeSegmentBreaks_eq (text : StrTendril) : normalizeSegmentBreaks text = emitted false text := by
  rw [normalizeSegmentBreaks, foldl_segmentBreakStep, List.nil_append]

/-- After a carriage return a line feed is left out, and everything else is as it is. -/
theorem emitted_true (text : StrTendril) :
    emitted true text = if text.head? = some '\n' then emitted false text.tail else emitted false text := by
  cases text with
  | nil => rfl
  | cons c text =>
    by_cases hlf : c = '\n'
    · simp [emitted, hlf]
    · simp [emitted, hlf]

/-- What two texts emit, one after another. -/
theorem emitted_append (afterCr : Bool) (a b : StrTendril) :
    emitted afterCr (a ++ b) = emitted afterCr a ++ emitted (endsInCr afterCr a) b := by
  have h := foldl_segmentBreakStep (a ++ b) ([], afterCr)
  rw [List.foldl_append, foldl_segmentBreakStep a, foldl_segmentBreakStep b] at h
  have hflag : (if a = [] then afterCr else endsInCr false a) = endsInCr afterCr a := by
    cases a with
    | nil => rfl
    | cons c a => simp [endsInCr, List.getLast?_cons]
  simpa [hflag] using (congrArg Prod.fst h).symm

/-- One text is normalised as it should be. -/
theorem emitted_eq_newlines (text : StrTendril) : emitted false text = newlines text := by
  induction text using newlines.induct with
  | case1 => rfl
  | case2 c =>
    by_cases hcr : c = '\r' <;> simp [newlines, emitted, hcr]
  | case3 c d text h ih =>
    obtain ⟨rfl, rfl⟩ := h
    simpa [newlines, emitted] using ih
  | case4 c d text h ih =>
    rw [newlines, if_neg h, ← ih]
    by_cases hcr : c = '\r'
    · have hlf : d ≠ '\n' := fun hd => h ⟨hcr, hd⟩
      rw [if_pos hcr, emitted, if_pos hcr, emitted_true, if_neg (by simpa using hlf)]
    · rw [if_neg hcr, emitted, if_neg hcr, if_neg (by simp)]

/-! ## Texts in a row -/

/-- How many of the texts begin with the line feed of a pair whose carriage return is before them. -/
def splitBreaks : Bool → List StrTendril → Nat
  | _, [] => 0
  | afterCr, text :: texts =>
    (if afterCr ∧ text.head? = some '\n' then 1 else 0) + splitBreaks (endsInCr afterCr text) texts

/-- No text that ends in a carriage return is followed, empty texts aside, by one that begins with a line feed. -/
def NoSplitBreak (texts : List StrTendril) : Prop :=
  (texts.filter (· ≠ [])).IsChain fun a b => ¬(a.getLast? = some '\r' ∧ b.head? = some '\n')

/-- Normalising texts one by one leaves one newline too many for each break that is split. -/
theorem length_flatMap_emitted (texts : List StrTendril) (afterCr : Bool) :
    (texts.flatMap (emitted false)).length = (emitted afterCr texts.flatten).length + splitBreaks afterCr texts := by
  induction texts generalizing afterCr with
  | nil => rfl
  | cons text texts ih =>
    have hone : (emitted false text).length =
        (emitted afterCr text).length + if afterCr ∧ text.head? = some '\n' then 1 else 0 := by
      cases afterCr with
      | false => simp
      | true =>
        rw [emitted_true]
        by_cases hlf : text.head? = some '\n'
        · obtain ⟨rest, rfl⟩ := List.head?_eq_some_iff.1 hlf
          simp [emitted_cons]
        · simp [hlf]
    rw [List.flatMap_cons, List.length_append, ih (endsInCr afterCr text), List.flatten_cons, emitted_append,
      List.length_append, splitBreaks, hone]
    omega

/-- Where no break is split, texts are normalised together as one by one. -/
theorem flatMap_emitted (texts : List StrTendril) (afterCr : Bool) (h : splitBreaks afterCr texts = 0) :
    texts.flatMap (emitted false) = emitted afterCr texts.flatten := by
  induction texts generalizing afterCr with
  | nil => rfl
  | cons text texts ih =>
    rw [splitBreaks, Nat.add_eq_zero_iff] at h
    have hone : emitted false text = emitted afterCr text := by
      cases afterCr with
      | false => rfl
      | true =>
        have hlf : text.head? ≠ some '\n' := by
          intro hlf
          simp [hlf] at h
        rw [emitted_true, if_neg hlf]
    rw [List.flatMap_cons, ih _ h.2, List.flatten_cons, emitted_append, hone]

/-- No break is split exactly if no text starts with a newline behind a return. -/
theorem splitBreaks_eq_zero_iff (texts : List StrTendril) (afterCr : Bool) : splitBreaks afterCr texts = 0 ↔
    (afterCr = true → ∀ text ∈ (texts.filter (· ≠ [])).head?, text.head? ≠ some '\n') ∧ NoSplitBreak texts := by
  induction texts generalizing afterCr with
  | nil => simp [splitBreaks, NoSplitBreak]
  | cons text texts ih =>
    rw [splitBreaks, Nat.add_eq_zero_iff, ih]
    by_cases hempty : text = []
    · -- an empty text changes nothing
      subst hempty
      simp [endsInCr, NoSplitBreak]
    · have hends : endsInCr afterCr text = true ↔ text.getLast? = some '\r' := by
        obtain ⟨front, c, rfl⟩ := List.eq_nil_or_concat text |>.resolve_left hempty
        simp [endsInCr]
      rw [NoSplitBreak, NoSplitBreak, List.filter_cons_of_pos (by simpa using hempty), List.isChain_cons, hends]
      simp only [List.head?_cons, Option.mem_def, Option.some.injEq]
      constructor
      · rintro ⟨hhead, hnext, hchain⟩
        refine ⟨?_, ?_, hchain⟩
        · rintro hcr _ rfl hlf
          simp [hcr, hlf] at hhead
        · rintro b hb ⟨hlast, hlf⟩
          exact hnext hlast b hb hlf
      · rintro ⟨hhead, hnext, hchain⟩
        refine ⟨?_, ?_, hchain⟩
        · rw [if_neg]
          rintro ⟨hcr, hlf⟩
          exact hhead hcr text rfl hlf
        · intro hlast b hb hlf
          exact hnext b hb ⟨hlast, hlf⟩

/-- Normalising texts one by one normalises them together exactly if no break is split between two of them. -/
theorem flatMap_normalizeSegmentBreaks_iff (texts : List StrTendril) :
    texts.flatMap normalizeSegmentBreaks = newlines texts.flatten ↔ NoSplitBreak texts := by
  have hflat : texts.flatMap normalizeSegmentBreaks = texts.flatMap (emitted false) := by
    congr 1
    funext text
    exact normalizeSegmentBreaks_eq text
  have hzero := splitBreaks_eq_zero_iff texts false
  simp only [Bool.false_eq_true, false_implies, true_and] at hzero
  rw [hflat, ← emitted_eq_newlines, ← hzero]
  constructor
  · intro h
    have := length_flatMap_emitted texts false
    rw [h] at this
    omega
  · exact flatMap_emitted texts false

end Whitespace

namespace Inline

open Whitespace (newlines normalizeSegmentBreaks NoSplitBreak)

/-- The text of an item. -/
def itemText : InlineItem → StrTendril
  | .text text _ _ => text
  | .lineBreak => []

/-- Text nodes of `white-space: pre`, with no break between them. -/
def Preformatted (run : List InlineItem) : Prop :=
  ∀ item ∈ run, ∃ text style node, item = .text text style node ∧ style.whiteSpace = .pre

variable {tree : BoxTree} {document : Document} {content : Forest BoxId} {before run after : List InlineItem}

/-- Items one after another are processed so. -/
theorem processed_append (suppress : Bool) (a b : List InlineItem) :
    ∃ suppress', processed suppress (a ++ b) = processed suppress a ++ processed suppress' b := by
  induction a generalizing suppress with
  | nil => exact ⟨suppress, rfl⟩
  | cons item a ih =>
    cases item with
    | text text style node =>
      obtain ⟨suppress', h⟩ := ih (Whitespace.process text style.whiteSpace suppress).suppressNextSpace
      exact ⟨suppress', by simp only [List.cons_append, processed, h]⟩
    | lineBreak =>
      obtain ⟨suppress', h⟩ := ih true
      exact ⟨suppress', by simp only [List.cons_append, processed, h]⟩

/-- Every item stays one. -/
theorem length_processed (suppress : Bool) (items : List InlineItem) : (processed suppress items).length = items.length := by
  induction items generalizing suppress with
  | nil => rfl
  | cons item items ih => cases item <;> simp only [processed, List.length_cons, ih]

/-- Preformatted text is normalised node by node. -/
theorem flatMap_processed (hpre : Preformatted run) (suppress : Bool) :
    (processed suppress run).flatMap itemText = (run.map itemText).flatMap normalizeSegmentBreaks := by
  induction run generalizing suppress with
  | nil => rfl
  | cons item run ih =>
    obtain ⟨text, style, node, rfl, hstyle⟩ := hpre item List.mem_cons_self
    simp only [processed, hstyle, Whitespace.process, List.flatMap_cons, List.map_cons, itemText,
      ih fun i hi => hpre i (List.mem_cons_of_mem _ hi)]

/-- The pieces of some of the inline content are at its place among all pieces. -/
theorem exists_processed (h : InlineContent tree content)
    (hsplit : sourceItems tree document content = before ++ run ++ after) :
    ∃ suppress, ((pieces tree document content).drop before.length).take run.length = processed suppress run := by
  obtain ⟨suppress, hafter⟩ := processed_append true before (run ++ after)
  obtain ⟨suppress', hrun⟩ := processed_append suppress run after
  refine ⟨suppress, ?_⟩
  rw [pieces_eq h, hsplit, List.append_assoc, hafter, hrun]
  rw [List.drop_left' (length_processed true before), List.take_left' (length_processed suppress run)]

/-- The pieces of preformatted text nodes in a row are the normalisation of their text as a whole exactly if no break is
split: no text that ends in a carriage return is followed, empty texts aside, by one that begins with a line feed. -/
theorem preformatted_iff (h : InlineContent tree content)
    (hsplit : sourceItems tree document content = before ++ run ++ after) (hpre : Preformatted run) :
    (((pieces tree document content).drop before.length).take run.length).flatMap itemText =
      newlines (run.flatMap itemText) ↔ NoSplitBreak (run.map itemText) := by
  obtain ⟨suppress, hpieces⟩ := exists_processed h hsplit
  have hflat : (run.map itemText).flatten = run.flatMap itemText := List.flatMap_def.symm
  rw [hpieces, flatMap_processed hpre, ← Whitespace.flatMap_normalizeSegmentBreaks_iff, hflat]

/-- The style of preformatted text. -/
def preStyle : LayoutStyle := { LayoutStyle.initial .sample with whiteSpace := .pre }

/-- A preformatted text node, and a nested inline box with another one. -/
def preTree : BoxTree where
  boxes :=
    [⟨some (.fromIndex 1), .inlineText (.fromIndex 1), preStyle, []⟩,
      ⟨some (.fromIndex 2), .inlineText (.fromIndex 2), preStyle, []⟩,
      ⟨some (.fromIndex 3), .inline, preStyle, [⟨1⟩]⟩]
  root := ⟨2⟩

/-- A document of two texts, side by side. -/
def preDocument (first second : String) : Document where
  nodes := [{ kind := .document }, { kind := .text first.toList }, { kind := .text second.toList }, { kind := .comment [] }]
  quirks := .noQuirks
  baseUrl := ""

/-- The boxes of the two texts. -/
def preContent : Forest BoxId := .cons ⟨0⟩ .nil (.cons ⟨2⟩ (.cons ⟨1⟩ .nil .nil) .nil)

/-- They are the content of one line. -/
theorem inlineContent_preContent : InlineContent preTree preContent := by
  refine ⟨⟨rfl, trivial, rfl, ⟨rfl, trivial, trivial⟩, trivial⟩, by decide, ?_⟩
  show ∀ id ∈ [(⟨0⟩ : BoxId), ⟨2⟩, ⟨1⟩], ∃ b, preTree.get id = some b ∧ IsInlineBox b
  simp only [List.forall_mem_cons, List.not_mem_nil, false_implies, implies_true, and_true]
  exact ⟨⟨_, rfl, rfl⟩, ⟨_, rfl, trivial⟩, ⟨_, rfl, rfl⟩⟩

/-- The items of the two texts. -/
def preRun (first second : String) : List InlineItem :=
  [.text first.toList preStyle (.fromIndex 1), .text second.toList preStyle (.fromIndex 2)]

/-- They are preformatted. -/
theorem preformatted_preRun (first second : String) : Preformatted (preRun first second) := by
  intro item hitem
  simp only [preRun, List.mem_cons, List.not_mem_nil, or_false] at hitem
  rcases hitem with rfl | rfl <;> exact ⟨_, _, _, rfl, rfl⟩

/-- A pair of a carriage return and a line feed within one node. -/
theorem preformatted_iff_whole :
    ((pieces preTree (preDocument "a\r\n" "b") preContent).drop 0 |>.take 2).flatMap itemText =
      newlines ((preRun "a\r\n" "b").flatMap itemText) ↔ NoSplitBreak ((preRun "a\r\n" "b").map itemText) :=
  @preformatted_iff _ _ _ [] _ [] inlineContent_preContent rfl (preformatted_preRun _ _)

/-- `a`, a carriage return, and in a nested box a line feed and `b`: two newlines come out. -/
theorem preformatted_split : ¬∀ (tree : BoxTree) (document : Document) (content : Forest BoxId)
    (before run after : List InlineItem), InlineContent tree content →
    sourceItems tree document content = before ++ run ++ after → Preformatted run →
    (((pieces tree document content).drop before.length).take run.length).flatMap itemText =
      newlines (run.flatMap itemText) := by
  intro hall
  have h := hall preTree (preDocument "a\r" "\nb") preContent [] (preRun "a\r" "\nb") [] inlineContent_preContent rfl
    (preformatted_preRun _ _)
  exact absurd h (by decide)

end Inline

end ChromeLight
