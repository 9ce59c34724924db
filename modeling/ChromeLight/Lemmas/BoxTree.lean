import ChromeLight.BoxTree
import ChromeLight.Lib.Arena
import ChromeLight.Lib.While
import Mathlib.Data.List.Chain

/-!
# The invariant of box generation

What holds in every state of the walk that makes the box tree: every box made is good on its own (`GoodBox`: its kind, its
style and the levels of its children fit together), the boxes were made bottom-up (`Arena.BottomUp`: children first, nobody
taken twice), and the containers on the stack hold boxes that are still to take.

Wrapping the runs of inline-level children is a loop of its own, with its own invariant (`WrapInv`).
-/

namespace ChromeLight

namespace BoxGen

open Arena (BottomUp)

/-- The child lists of the boxes, as indices. -/
def kidsOf (boxes : List LayoutBox) : List (List Nat) := boxes.map fun b => b.children.map BoxId.index

/-- The box is an anonymous block. -/
def isAnonymous (boxes : List LayoutBox) (id : BoxId) : Prop := ∃ b, boxes[id.index]? = some b ∧ b.kind = .anonymousBlock

/-- A box whose kind, style and children fit together. -/
structure GoodBox (document : Document) (boxes : List LayoutBox) (b : LayoutBox) : Prop where
  resolved : ∀ c ∈ b.children, c.index < boxes.length
  levels : b.kind = .block ∨ b.kind = .anonymousBlock →
    (∀ c ∈ b.children, hasLevel boxes true c) ∨ (∀ c ∈ b.children, hasLevel boxes false c)
  inline : b.kind = .inline → ∀ c ∈ b.children, hasLevel boxes false c
  leaf : (∃ n, b.kind = .inlineText n) ∨ b.kind = .lineBreak → b.children = []
  nonempty : b.kind = .anonymousBlock → b.children ≠ []
  apart : b.children.IsChain fun a c => ¬(isAnonymous boxes a ∧ isAnonymous boxes c)
  display : ∀ n, b.node = some n → (document.element n).isSome → b.kind ≠ .lineBreak →
    (b.kind = .block ↔ b.style.display = .block) ∧ (b.kind = .inline ↔ b.style.display = .inline)
  named : b.node = none ↔ b.kind = .anonymousBlock

variable {document : Document} {boxes more : List LayoutBox}

/-- A box has a level if it is there and its kind is of that level. -/
theorem hasLevel_iff {blockLevel : Bool} {id : BoxId} :
    hasLevel boxes blockLevel id = true ↔ ∃ b, boxes[id.index]? = some b ∧ isBlockLevel b.kind = blockLevel := by
  unfold hasLevel
  cases boxes[id.index]? <;> simp

/-- Levels stay as boxes are pushed. -/
theorem hasLevel_append {blockLevel : Bool} {id : BoxId} (h : hasLevel boxes blockLevel id) :
    hasLevel (boxes ++ more) blockLevel id := by
  obtain ⟨b, hb, hl⟩ := hasLevel_iff.1 h
  exact hasLevel_iff.2 ⟨b, by rw [List.getElem?_append_left (List.getElem?_eq_some_iff.1 hb).1, hb], hl⟩

/-- Anonymous blocks stay so as boxes are pushed. -/
theorem isAnonymous_append {id : BoxId} (h : id.index < boxes.length) :
    isAnonymous (boxes ++ more) id ↔ isAnonymous boxes id := by
  unfold isAnonymous
  rw [List.getElem?_append_left h]

/-- A box that is not anonymous is of the level of its kind. -/
theorem hasLevel_of_lt {id : BoxId} (h : id.index < boxes.length) : hasLevel boxes true id ∨ hasLevel boxes false id := by
  have hb := List.getElem?_eq_getElem h
  cases hl : isBlockLevel boxes[id.index].kind
  · exact Or.inr (hasLevel_iff.2 ⟨_, hb, hl⟩)
  · exact Or.inl (hasLevel_iff.2 ⟨_, hb, hl⟩)

/-- No inline-level box is an anonymous block. -/
theorem not_isAnonymous_of_inline {id : BoxId} (h : hasLevel boxes false id) : ¬isAnonymous boxes id := by
  rintro ⟨b, hb, hk⟩
  obtain ⟨b', hb', hl⟩ := hasLevel_iff.1 h
  rw [hb] at hb'
  cases hb'
  rw [hk] at hl
  cases hl

/-- A good box stays good when the arena grows. -/
theorem GoodBox.append {b : LayoutBox} (h : GoodBox document boxes b) : GoodBox document (boxes ++ more) b := by
  refine ⟨fun c hc => ?_, fun hk => ?_, fun hk c hc => hasLevel_append (h.inline hk c hc), h.leaf, h.nonempty, ?_, h.display,
    h.named⟩
  · rw [List.length_append]
    have := h.resolved c hc
    omega
  · rcases h.levels hk with hl | hl
    · exact Or.inl fun c hc => hasLevel_append (hl c hc)
    · exact Or.inr fun c hc => hasLevel_append (hl c hc)
  · refine h.apart.imp_of_mem_imp ?_
    intro a c ha hc hac
    rwa [isAnonymous_append (h.resolved a ha), isAnonymous_append (h.resolved c hc)]

/-- Every box of the arena is good. -/
def AllGood (document : Document) (boxes : List LayoutBox) : Prop := ∀ b ∈ boxes, GoodBox document boxes b

/-- A good box keeps all boxes good. -/
theorem AllGood.push {b : LayoutBox} (h : AllGood document boxes) (hb : GoodBox document boxes b) :
    AllGood document (boxes ++ [b]) := by
  intro b' hb'
  rcases List.mem_append.1 hb' with hb' | hb'
  · exact (h b' hb').append
  · rw [List.mem_singleton.1 hb']
    exact hb.append

/-- A box that is pushed brings its own children. -/
theorem kidsOf_push (b : LayoutBox) : kidsOf (boxes ++ [b]) = kidsOf boxes ++ [b.children.map BoxId.index] := by
  simp [kidsOf]

/-- Every box has its children. -/
@[simp] theorem length_kidsOf (boxes : List LayoutBox) : (kidsOf boxes).length = boxes.length := by
  simp [kidsOf]

/-- Ids that somebody holds, as indices. -/
def indices (ids : List BoxId) : List Nat := ids.map BoxId.index

@[simp] theorem indices_nil : indices [] = [] := rfl

@[simp] theorem indices_cons (a : BoxId) (b : List BoxId) : indices (a :: b) = a.index :: indices b := rfl

@[simp] theorem indices_append (a b : List BoxId) : indices (a ++ b) = indices a ++ indices b := List.map_append

/-! ## Wrapping -/

/-- What holds while the runs of a container's children are wrapped, with the children `l` still to come and the indices
`others` pending elsewhere. -/
structure WrapInv (document : Document) (others : List Nat) (l : List BoxId) (s : WrapState) : Prop where
  good : AllGood document s.boxes
  pending : BottomUp (kidsOf s.boxes) (indices s.result ++ (indices s.run ++ (indices l ++ others)))
  result : ∀ c ∈ s.result, hasLevel s.boxes true c
  run : ∀ c ∈ s.run, hasLevel s.boxes false c
  rest : ∀ c ∈ l, ¬isAnonymous s.boxes c
  apart : s.result.IsChain fun a c => ¬(isAnonymous s.boxes a ∧ isAnonymous s.boxes c)

/-- The last child kept is not anonymous: another anonymous block may follow. -/
def LastNamed (s : WrapState) : Prop := ∀ c ∈ s.result.getLast?, ¬isAnonymous s.boxes c

variable {Γ : FloatOps} {style : LayoutStyle} {others : List Nat} {l : List BoxId} {s : WrapState}

/-- The boxes that are wrapped are there. -/
theorem WrapInv.lt_length (h : WrapInv document others l s) {c : BoxId} (hc : c ∈ s.result ∨ c ∈ s.run ∨ c ∈ l) :
    c.index < s.boxes.length := by
  have := h.pending.present c.index
  rw [length_kidsOf] at this
  apply this
  simp only [List.mem_append, indices]
  rcases hc with hc | hc | hc
  · exact Or.inl (List.mem_map_of_mem hc)
  · exact Or.inr (Or.inl (List.mem_map_of_mem hc))
  · exact Or.inr (Or.inr (Or.inl (List.mem_map_of_mem hc)))

/-- A new box that takes some of the pending ones. -/
theorem BottomUp_push {b : LayoutBox} {pending : List Nat} (rest : List Nat) (h : BottomUp (kidsOf boxes) pending)
    (hr : List.Perm pending (indices b.children ++ rest)) :
    BottomUp (kidsOf (boxes ++ [b])) (rest ++ [boxes.length]) := by
  have := h.push (hr.symm.subperm : List.Subperm (indices b.children ++ rest) pending)
  rwa [length_kidsOf, indices, ← kidsOf_push] at this

/-- The end of a run. -/
theorem WrapInv.pushOrDropRun (Γ : FloatOps) (style : LayoutStyle) (h : WrapInv document others l s) (hlast : LastNamed s)
    (hne : s.run ≠ []) :
    WrapInv document others l (pushOrDropRun Γ document style s) ∧ (pushOrDropRun Γ document style s).run = [] := by
  unfold BoxGen.pushOrDropRun
  split
  · refine ⟨⟨h.good, h.pending.drop ?_, h.result, by simp, h.rest, h.apart⟩, rfl⟩
    exact (List.Sublist.append_left (List.sublist_append_right _ _) _).subperm
  · simp only [flushRun, pushBox, and_true]
    have hnew : GoodBox document s.boxes ⟨none, .anonymousBlock, .anonymousBlock Γ style, s.run⟩ := by
      refine ⟨fun c hc => h.lt_length (Or.inr (Or.inl hc)), fun _ => Or.inr h.run, by simp, by simp, fun _ => hne, ?_, by simp,
        by simp⟩
      refine List.Pairwise.isChain (List.pairwise_of_forall_mem_list fun a ha _ _ hac => ?_)
      exact not_isAnonymous_of_inline (h.run a ha) hac.1
    have hres : ∀ c ∈ s.result, c.index < s.boxes.length := fun c hc => h.lt_length (Or.inl hc)
    refine ⟨h.good.push hnew, ?_, ?_, by simp, fun c hc => ?_, ?_⟩
    · refine (BottomUp_push (indices s.result ++ (indices l ++ others)) h.pending ?_).drop ?_
      · exact List.perm_iff_count.2 fun a => by simp only [List.count_append]; omega
      · refine (List.perm_iff_count.2 fun a => ?_ : List.Perm _ _).subperm
        simp only [indices_append, indices_cons, indices_nil, List.count_append, List.count_nil]
        omega
    · intro c hc
      rcases List.mem_append.1 hc with hc | hc
      · exact hasLevel_append (h.result c hc)
      · rw [List.mem_singleton.1 hc]
        exact hasLevel_iff.2 ⟨_, List.getElem?_concat_length, rfl⟩
    · rw [isAnonymous_append (h.lt_length (Or.inr (Or.inr hc)))]
      exact h.rest c hc
    · refine List.IsChain.append (h.apart.imp_of_mem_imp ?_) (List.isChain_singleton _) ?_
      · intro a c ha hc hac
        rwa [isAnonymous_append (hres a ha), isAnonymous_append (hres c hc)]
      · intro a ha c _ hac
        rw [isAnonymous_append (hres a (List.mem_of_getLast? ha))] at hac
        exact hlast a ha hac.1

/-- One more block-level child is kept. -/
theorem WrapInv.keep {id : BoxId} (h : WrapInv document others (id :: l) s) (hrun : s.run = [])
    (hid : hasLevel s.boxes true id) :
    WrapInv document others l { s with result := s.result ++ [id] } ∧ LastNamed { s with result := s.result ++ [id] } := by
  have hnamed := h.rest id List.mem_cons_self
  refine ⟨⟨h.good, ?_, ?_, h.run, fun c hc => h.rest c (List.mem_cons_of_mem _ hc), ?_⟩, ?_⟩
  · have := h.pending
    rw [hrun] at this ⊢
    simpa using this
  · intro c hc
    rcases List.mem_append.1 hc with hc | hc
    · exact h.result c hc
    · rw [List.mem_singleton.1 hc]
      exact hid
  · refine h.apart.append (List.isChain_singleton _) ?_
    intro a _ c hc hac
    obtain rfl : id = c := by simpa using hc
    exact hnamed hac.2
  · intro c hc
    obtain rfl : id = c := by simpa using hc
    exact hnamed

/-- One iteration of the wrapping. -/
theorem WrapInv.step (Γ : FloatOps) (style : LayoutStyle) {id : BoxId} (h : WrapInv document others (id :: l) s)
    (hlast : LastNamed s) :
    WrapInv document others l (wrapStep Γ document style s id) ∧ LastNamed (wrapStep Γ document style s id) := by
  unfold wrapStep
  split
  · rename_i hid
    cases hrun : s.run with
    | nil => exact h.keep hrun hid
    | cons a run =>
      simp only [List.isEmpty_cons, Bool.false_eq_true, if_false]
      obtain ⟨h', hrun'⟩ := h.pushOrDropRun Γ style hlast (by simp [hrun])
      refine h'.keep hrun' ?_
      -- the arena has only grown
      unfold BoxGen.pushOrDropRun
      split
      · exact hid
      · exact hasLevel_append hid
  · rename_i hid
    have hlt : id.index < s.boxes.length := h.lt_length (Or.inr (Or.inr List.mem_cons_self))
    have hinline : hasLevel s.boxes false id := (hasLevel_of_lt hlt).resolve_left hid
    refine ⟨⟨h.good, ?_, h.result, ?_, fun c hc => h.rest c (List.mem_cons_of_mem _ hc), h.apart⟩, hlast⟩
    · simpa using h.pending
    · intro c hc
      rcases List.mem_append.1 hc with hc | hc
      · exact h.run c hc
      · rw [List.mem_singleton.1 hc]
        exact hinline

/-- Wrapping all boxes keeps the invariant. -/
theorem WrapInv.foldl (Γ : FloatOps) (style : LayoutStyle) (h : WrapInv document others l s) (hlast : LastNamed s) :
    WrapInv document others [] (l.foldl (wrapStep Γ document style) s) ∧ LastNamed (l.foldl (wrapStep Γ document style) s) := by
  induction l generalizing s with
  | nil => exact ⟨h, hlast⟩
  | cons id l ih =>
    obtain ⟨h', hlast'⟩ := h.step Γ style hlast
    exact ih h' hlast'

/-- What wrapping a container's children leaves: good boxes only, and children of one level among which no two anonymous
blocks are neighbours. -/
structure Wrapped (document : Document) (others : List Nat) (r : List BoxId × List LayoutBox) : Prop where
  good : AllGood document r.2
  pending : BottomUp (kidsOf r.2) (indices r.1 ++ others)
  levels : (∀ c ∈ r.1, hasLevel r.2 true c) ∨ (∀ c ∈ r.1, hasLevel r.2 false c)
  apart : r.1.IsChain fun a c => ¬(isAnonymous r.2 a ∧ isAnonymous r.2 c)

/-- Wrapping the runs of a block leaves all of its boxes wrapped. -/
theorem wrapInlineRuns_wrapped (Γ : FloatOps) (style : LayoutStyle) {built : List BoxId} (hgood : AllGood document boxes)
    (hpending : BottomUp (kidsOf boxes) (indices built ++ others)) (hnamed : ∀ c ∈ built, ¬isAnonymous boxes c) :
    Wrapped document others (wrapInlineRuns Γ boxes document built style) := by
  have hlt : ∀ c ∈ built, c.index < boxes.length := by
    intro c hc
    have := hpending.present c.index (List.mem_append_left _ (List.mem_map_of_mem hc))
    rwa [length_kidsOf] at this
  unfold wrapInlineRuns
  cases hb : built.any (hasLevel boxes true) with
  | false =>
    refine ⟨hgood, hpending, Or.inr fun c hc => ?_, ?_⟩
    · refine (hasLevel_of_lt (hlt c hc)).resolve_left ?_
      intro h
      exact absurd h (List.any_eq_false.1 hb c hc)
    · exact List.Pairwise.isChain (List.pairwise_of_forall_mem_list fun a ha _ _ hac => hnamed a ha hac.1)
  | true =>
    cases hi : built.any (hasLevel boxes false) with
    | false =>
      refine ⟨hgood, hpending, Or.inl fun c hc => ?_, ?_⟩
      · refine (hasLevel_of_lt (hlt c hc)).resolve_right ?_
        intro h
        exact absurd h (List.any_eq_false.1 hi c hc)
      · exact List.Pairwise.isChain (List.pairwise_of_forall_mem_list fun a ha _ _ hac => hnamed a ha hac.1)
    | true =>
      simp only [Bool.and_self, Bool.not_true, Bool.false_eq_true, if_false]
      have h0 : WrapInv document others built { boxes, run := [], result := [] } :=
        ⟨hgood, by simpa using hpending, by simp, by simp, hnamed, List.isChain_nil⟩
      obtain ⟨h, hlast⟩ := h0.foldl Γ style (by simp [LastNamed])
      cases hrun : (built.foldl (wrapStep Γ document style) { boxes, run := [], result := [] }).run with
      | nil =>
        refine ⟨h.good, ?_, Or.inl h.result, h.apart⟩
        have := h.pending
        rw [hrun] at this
        simpa using this
      | cons a run =>
        simp only [List.isEmpty_cons, Bool.false_eq_true, if_false]
        obtain ⟨h', hrun'⟩ := h.pushOrDropRun Γ style hlast (by simp [hrun])
        refine ⟨h'.good, ?_, Or.inl h'.result, h'.apart⟩
        have := h'.pending
        rw [hrun'] at this
        simpa using this

/-! ## Iterations -/

/-- The box of a container whose children are exhausted. -/
def finishFrame (Γ : FloatOps) (document : Document) (frame : Frame) (boxes : List LayoutBox) : BoxId × List LayoutBox :=
  let final := finalizeKind frame.kind frame.style boxes frame.built
  let wrapped := wrapInlineRuns Γ boxes document frame.built final.2
  pushBox wrapped.2 (some frame.node) final.1 final.2 wrapped.1

/-- What an iteration that goes on does. -/
inductive Builds (Γ : FloatOps) (doc : StyledDocument) : BuildState → BuildState → Prop where
  | finish {frame parent : Frame} {stack : List Frame} {boxes : List LayoutBox} : frame.children = [] →
      Builds Γ doc { stack := frame :: parent :: stack, boxes }
        { stack := { parent with built := parent.built ++ [(finishFrame Γ doc.document frame boxes).1] } :: stack
          boxes := (finishFrame Γ doc.document frame boxes).2 }
  | skip {frame : Frame} {id : NodeId} {children : List NodeId} {stack : List Frame} {boxes : List LayoutBox} :
      frame.children = id :: children → classifyChild Γ doc id frame.style = .skip →
      Builds Γ doc { stack := frame :: stack, boxes } { stack := { frame with children } :: stack, boxes }
  | leaf {frame : Frame} {id : NodeId} {children : List NodeId} {stack : List Frame} {boxes : List LayoutBox}
      {kind : BoxKind} {style : LayoutStyle} :
      frame.children = id :: children → classifyChild Γ doc id frame.style = .leaf kind style →
      Builds Γ doc { stack := frame :: stack, boxes }
        { stack := { frame with children, built := frame.built ++ [⟨boxes.length⟩] } :: stack
          boxes := boxes ++ [⟨some id, kind, style, []⟩] }
  | container {frame : Frame} {id : NodeId} {children : List NodeId} {stack : List Frame} {boxes : List LayoutBox}
      {kind : ContainerKind} {style : LayoutStyle} :
      frame.children = id :: children → classifyChild Γ doc id frame.style = .container kind style →
      Builds Γ doc { stack := frame :: stack, boxes }
        { stack := { node := id, style, kind, children := doc.document.children id, built := [] } ::
            { frame with children } :: stack
          boxes }

/-- A round that goes on is one of the ways to go on. -/
theorem buildStep_inl {doc : StyledDocument} {s s' : BuildState} :
    buildStep Γ doc s = .inl s' ↔ Builds Γ doc s s' := by
  constructor
  · intro h
    obtain ⟨stack, boxes⟩ := s
    match stack with
    | [] => simp [buildStep] at h
    | frame :: stack =>
      cases hc : frame.children with
      | nil =>
        match stack with
        | [] => simp [buildStep, hc] at h
        | parent :: stack =>
          simp only [buildStep, hc, Sum.inl.injEq] at h
          exact h ▸ Builds.finish hc
      | cons id children =>
        simp only [buildStep, hc] at h
        cases hcl : classifyChild Γ doc id frame.style with
        | skip =>
          simp only [hcl, Sum.inl.injEq] at h
          exact h ▸ Builds.skip hc hcl
        | leaf kind style =>
          simp only [hcl, pushBox, Sum.inl.injEq] at h
          exact h ▸ Builds.leaf hc hcl
        | container kind style =>
          simp only [hcl, Sum.inl.injEq] at h
          exact h ▸ Builds.container hc hcl
  · intro h
    cases h with
    | finish hc => simp only [buildStep, hc, finishFrame]
    | skip hc hcl => simp only [buildStep, hc, hcl]
    | leaf hc hcl => simp only [buildStep, hc, hcl, pushBox]
    | container hc hcl => simp only [buildStep, hc, hcl]

/-! ## The invariant of the walk -/

/-- A container on the stack: its kind is that of its style, and it holds no anonymous block. -/
structure FrameGood (boxes : List LayoutBox) (frame : Frame) : Prop where
  block : frame.kind = .block ↔ frame.style.display = .block
  inline : frame.kind = .inline ↔ frame.style.display = .inline
  named : ∀ c ∈ frame.built, ¬isAnonymous boxes c

/-- What holds while the boxes are built. -/
structure BuildInv (document : Document) (s : BuildState) : Prop where
  good : AllGood document s.boxes
  pending : BottomUp (kidsOf s.boxes) (indices (s.stack.flatMap Frame.built))
  frames : ∀ frame ∈ s.stack, FrameGood s.boxes frame

/-- A frame stays good as boxes are pushed. -/
theorem FrameGood.append {frame : Frame} (h : FrameGood boxes frame) (more : List LayoutBox)
    (hlt : ∀ c ∈ frame.built, c.index < boxes.length) : FrameGood (boxes ++ more) frame :=
  { h with named := fun c hc => by rw [isAnonymous_append (hlt c hc)]; exact h.named c hc }

/-- The boxes of an open frame are there. -/
theorem BuildInv.lt_length {s : BuildState} (h : BuildInv document s) {frame : Frame} (hf : frame ∈ s.stack) {c : BoxId}
    (hc : c ∈ frame.built) : c.index < s.boxes.length := by
  have := h.pending.present c.index (List.mem_map_of_mem (List.mem_flatMap.2 ⟨frame, hf, hc⟩))
  rwa [length_kidsOf] at this

/-- An inline box with a block inside becomes a block. -/
theorem finalizeKind_eq (kind : ContainerKind) (style : LayoutStyle) (built : List BoxId) :
    finalizeKind kind style boxes built =
      match kind with
      | .block => (.block, style)
      | .inline => if built.any (hasLevel boxes true) then (.block, { style with display := .block }) else (.inline, style) := by
  unfold finalizeKind
  cases kind <;> simp

/-- Without a block-level child nothing is wrapped. -/
theorem wrapInlineRuns_inline {built : List BoxId} (h : built.any (hasLevel boxes true) = false) :
    wrapInlineRuns Γ boxes document built style = (built, boxes) := by
  simp [wrapInlineRuns, h]

/-- A run is wrapped or dropped at the end of the boxes. -/
theorem pushOrDropRun_boxes (Γ : FloatOps) (document : Document) (style : LayoutStyle) (s : WrapState) :
    ∃ more, (pushOrDropRun Γ document style s).boxes = s.boxes ++ more := by
  unfold pushOrDropRun
  split
  · exact ⟨[], (List.append_nil _).symm⟩
  · exact ⟨_, rfl⟩

/-- Wrapping pushes boxes only. -/
theorem wrapStep_boxes (Γ : FloatOps) (document : Document) (style : LayoutStyle) (s : WrapState) (id : BoxId) :
    ∃ more, (wrapStep Γ document style s id).boxes = s.boxes ++ more := by
  unfold wrapStep
  split
  · split
    · exact ⟨[], (List.append_nil _).symm⟩
    · exact pushOrDropRun_boxes Γ document style s
  · exact ⟨[], (List.append_nil _).symm⟩

/-- Wrapping all of them pushes boxes only. -/
theorem foldl_wrapStep_boxes (Γ : FloatOps) (document : Document) (style : LayoutStyle) (l : List BoxId)
    (s : WrapState) :
    ∃ more, (l.foldl (wrapStep Γ document style) s).boxes = s.boxes ++ more := by
  induction l generalizing s with
  | nil => exact ⟨[], (List.append_nil _).symm⟩
  | cons id l ih =>
    obtain ⟨more, hm⟩ := wrapStep_boxes Γ document style s id
    obtain ⟨more', hm'⟩ := ih (wrapStep Γ document style s id)
    exact ⟨more ++ more', by rw [List.foldl_cons, hm', hm, List.append_assoc]⟩

/-- Wrapping only adds boxes. -/
theorem wrapInlineRuns_boxes (Γ : FloatOps) (document : Document) (style : LayoutStyle) (boxes : List LayoutBox)
    (built : List BoxId) :
    ∃ more, (wrapInlineRuns Γ boxes document built style).2 = boxes ++ more := by
  simp only [wrapInlineRuns]
  split
  · exact ⟨[], (List.append_nil _).symm⟩
  · obtain ⟨more, hm⟩ := foldl_wrapStep_boxes Γ document style built { boxes, run := [], result := [] }
    split
    · exact ⟨more, hm⟩
    · obtain ⟨more', hm'⟩ := pushOrDropRun_boxes Γ document style
        (built.foldl (wrapStep Γ document style) { boxes, run := [], result := [] })
      exact ⟨more ++ more', by rw [hm', hm, List.append_assoc]⟩

/-- Finishing a frame pushes boxes only. -/
theorem finishFrame_boxes (Γ : FloatOps) (document : Document) (frame : Frame) (boxes : List LayoutBox) :
    ∃ more, (finishFrame Γ document frame boxes).2 = boxes ++ more := by
  obtain ⟨more, hm⟩ := wrapInlineRuns_boxes Γ document
    (finalizeKind frame.kind frame.style boxes frame.built).2 boxes frame.built
  exact ⟨more ++ _, by rw [finishFrame, pushBox, hm, List.append_assoc]⟩

/-- The box of an exhausted container: good, and pending in its place. -/
theorem finishFrame_good (Γ : FloatOps) {frame : Frame} (others : List Nat) (hf : FrameGood boxes frame)
    (hgood : AllGood document boxes) (hpending : BottomUp (kidsOf boxes) (indices frame.built ++ others)) :
    AllGood document (finishFrame Γ document frame boxes).2 ∧
      BottomUp (kidsOf (finishFrame Γ document frame boxes).2) (others ++ [(finishFrame Γ document frame boxes).1.index]) ∧
      ¬isAnonymous (finishFrame Γ document frame boxes).2 (finishFrame Γ document frame boxes).1 := by
  have hw := wrapInlineRuns_wrapped Γ (finalizeKind frame.kind frame.style boxes frame.built).2
    hgood hpending hf.named
  unfold finishFrame
  simp only [pushBox]
  set final := finalizeKind frame.kind frame.style boxes frame.built with hfinal
  have hkind : (final.1 = .block ∧ final.2.display = .block) ∨ (final.1 = .inline ∧ final.2.display = .inline ∧
      frame.built.any (hasLevel boxes true) = false) := by
    rw [hfinal, finalizeKind_eq]
    cases hk : frame.kind with
    | block => exact Or.inl ⟨rfl, hf.block.1 hk⟩
    | inline =>
      cases hb : frame.built.any (hasLevel boxes true) with
      | true => exact Or.inl ⟨rfl, rfl⟩
      | false => exact Or.inr ⟨rfl, hf.inline.1 hk, rfl⟩
  set r := wrapInlineRuns Γ boxes document frame.built final.2 with hr
  have hbox : GoodBox document r.2 ⟨some frame.node, final.1, final.2, r.1⟩ := by
    refine ⟨fun c hc => ?_, fun _ => hw.levels, fun hk => ?_, fun hk => ?_, fun hk => ?_, hw.apart, fun n _ _ _ => ?_, ?_⟩
    · have := hw.pending.present c.index (List.mem_append_left _ (List.mem_map_of_mem hc))
      rwa [length_kidsOf] at this
    · rcases hkind with ⟨hk', -⟩ | ⟨-, -, hb⟩
      · rw [show final.1 = .inline from hk] at hk'
        cases hk'
      · rw [hr, wrapInlineRuns_inline hb]
        intro c hc
        have hlt := hpending.present c.index (List.mem_append_left _ (List.mem_map_of_mem hc))
        rw [length_kidsOf] at hlt
        exact (hasLevel_of_lt hlt).resolve_left (fun h => List.any_eq_false.1 hb c hc h)
    · rcases hkind with ⟨hk', -⟩ | ⟨hk', -⟩ <;> simp [hk'] at hk
    · rcases hkind with ⟨hk', -⟩ | ⟨hk', -⟩ <;> simp [hk'] at hk
    · rcases hkind with ⟨hk', hd⟩ | ⟨hk', hd, -⟩ <;> simp [hk', hd]
    · rcases hkind with ⟨hk', -⟩ | ⟨hk', -⟩ <;> simp [hk']
  refine ⟨hw.good.push hbox, BottomUp_push _ hw.pending (List.Perm.refl _), ?_⟩
  rintro ⟨b, hb, hk⟩
  rw [List.getElem?_concat_length] at hb
  cases hb
  rcases hkind with ⟨hk', -⟩ | ⟨hk', -⟩ <;> simp [hk'] at hk

/-- A leaf or a container is what its node says. -/
theorem classifyChild_leaf {doc : StyledDocument} {id : NodeId} {parentStyle : LayoutStyle} {kind : BoxKind}
    (h : classifyChild Γ doc id parentStyle = .leaf kind style) :
    (kind = .inlineText id ∧ doc.document.element id = none) ∨ kind = .lineBreak := by
  unfold classifyChild at h
  cases hg : doc.document.get id with
  | none => simp [hg] at h
  | some n =>
    cases hk : n.kind with
    | text t =>
      simp only [hg, hk, ChildBox.leaf.injEq] at h
      exact Or.inl ⟨h.1.symm, by simp [Document.element, hg, hk]⟩
    | element e =>
      simp only [hg, hk] at h
      cases hc : doc.computed id with
      | none => simp [hc] at h
      | some style' =>
        simp only [hc] at h
        split at h
        · cases h
        · split at h
          · cases h; exact Or.inr rfl
          · split at h <;> cases h
    | _ => simp [hg, hk] at h

/-- A container has a style that displays as a block or inline. -/
theorem classifyChild_container {doc : StyledDocument} {id : NodeId} {parentStyle : LayoutStyle} {kind : ContainerKind}
    (h : classifyChild Γ doc id parentStyle = .container kind style) :
    doc.computed id = some style ∧ (kind = .block ↔ style.display = .block) ∧
      (kind = .inline ↔ style.display = .inline) := by
  unfold classifyChild at h
  split at h
  · cases h
  · split at h
    · cases h
    · split at h
      · cases h
      · rename_i style' hcomputed
        split at h
        · cases h
        · rename_i hshown
          split at h
          · cases h
          · cases hdisplay : style'.display with
            | none => exact absurd hdisplay hshown
            | block =>
              rw [hdisplay] at h
              obtain ⟨rfl, rfl⟩ := ChildBox.container.inj h
              simp [hcomputed, hdisplay]
            | inline =>
              rw [hdisplay] at h
              obtain ⟨rfl, rfl⟩ := ChildBox.container.inj h
              simp [hcomputed, hdisplay]
    all_goals cases h

/-- Every iteration keeps the invariant. -/
theorem BuildInv.step {doc : StyledDocument} {s s' : BuildState} (h : BuildInv doc.document s) (hs : Builds Γ doc s s') :
    BuildInv doc.document s' := by
  cases hs with
  | @finish frame parent stack boxes hc =>
    have hlt : ∀ f ∈ frame :: parent :: stack, ∀ c ∈ f.built, c.index < boxes.length := fun f hf c hc => h.lt_length hf hc
    obtain ⟨hgood, hpending, hnamed⟩ := finishFrame_good Γ
      (indices (parent.built ++ stack.flatMap Frame.built)) (h.frames frame List.mem_cons_self) h.good
      (by simpa using h.pending)
    obtain ⟨more, hmore⟩ := finishFrame_boxes Γ doc.document frame boxes
    refine ⟨hgood, hpending.drop ?_, fun f hf => ?_⟩
    · refine (List.perm_iff_count.2 fun a => ?_ : List.Perm _ _).subperm
      simp only [List.flatMap_cons, indices_append, indices_cons, indices_nil, List.count_append]
      omega
    · rcases List.mem_cons.1 hf with rfl | hf
      · have hp := (h.frames parent (by simp)).append more (hlt parent (by simp))
        rw [← hmore] at hp
        refine ⟨hp.block, hp.inline, ?_⟩
        intro c hc
        rcases List.mem_append.1 hc with hc | hc
        · exact hp.named c hc
        · rw [List.mem_singleton.1 hc]
          exact hnamed
      · have hf' : f ∈ frame :: parent :: stack := by simp [hf]
        have := (h.frames f hf').append more (hlt f hf')
        rwa [← hmore] at this
  | @skip frame id children stack boxes hc hcl =>
    refine ⟨h.good, by simpa using h.pending, ?_⟩
    intro f hf
    rcases List.mem_cons.1 hf with rfl | hf
    · have := h.frames frame List.mem_cons_self
      exact ⟨this.block, this.inline, this.named⟩
    · exact h.frames f (List.mem_cons_of_mem _ hf)
  | @leaf frame id children stack boxes kind style hc hcl =>
    have hlt : ∀ f ∈ frame :: stack, ∀ c ∈ f.built, c.index < boxes.length := fun f hf c hc => h.lt_length hf hc
    have hbox : GoodBox doc.document boxes ⟨some id, kind, style, []⟩ := by
      refine ⟨by simp, by simp, by simp, by simp, ?_, List.isChain_nil, ?_, ?_⟩
      · rcases classifyChild_leaf hcl with ⟨rfl, -⟩ | rfl <;> simp
      · rintro n hn he hk
        cases hn
        rcases classifyChild_leaf hcl with ⟨-, hno⟩ | rfl
        · rw [hno] at he
          cases he
        · exact absurd rfl hk
      · rcases classifyChild_leaf hcl with ⟨rfl, -⟩ | rfl <;> simp
    refine ⟨h.good.push hbox, ?_, fun f hf => ?_⟩
    · refine (BottomUp_push (indices ((frame :: stack).flatMap Frame.built)) h.pending (List.Perm.refl _)).drop ?_
      refine (List.perm_iff_count.2 fun a => ?_ : List.Perm _ _).subperm
      simp only [List.flatMap_cons, indices_append, indices_cons, indices_nil, List.count_append]
      omega
    · rcases List.mem_cons.1 hf with rfl | hf
      · have hp := (h.frames frame List.mem_cons_self).append [⟨some id, kind, style, []⟩]
          (hlt frame List.mem_cons_self)
        refine ⟨hp.block, hp.inline, ?_⟩
        intro c hc
        rcases List.mem_append.1 hc with hc | hc
        · exact hp.named c hc
        · rw [List.mem_singleton.1 hc]
          rintro ⟨b, hb, hk⟩
          rw [List.getElem?_concat_length] at hb
          cases hb
          rcases classifyChild_leaf hcl with ⟨rfl, -⟩ | rfl <;> cases hk
      · exact (h.frames f (List.mem_cons_of_mem _ hf)).append _ (hlt f (List.mem_cons_of_mem _ hf))
  | @container frame id children stack boxes kind style hc hcl =>
    refine ⟨h.good, by simpa using h.pending, ?_⟩
    intro f hf
    rcases List.mem_cons.1 hf with rfl | hf
    · obtain ⟨-, hb, hi⟩ := classifyChild_container hcl
      exact ⟨hb, hi, by simp⟩
    · rcases List.mem_cons.1 hf with rfl | hf
      · have := h.frames frame List.mem_cons_self
        exact ⟨this.block, this.inline, this.named⟩
      · exact h.frames f (List.mem_cons_of_mem _ hf)

end BoxGen

end ChromeLight
