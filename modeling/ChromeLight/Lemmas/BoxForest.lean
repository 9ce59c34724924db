import ChromeLight.Lemmas.BoxTree
import ChromeLight.Lib.Runs

/-!
# Box generation as a recursion over the document

`gen` is box generation as one writes it down: for a container, the boxes of its children by recursion, its final kind, and
the wrapping of the runs among them, on forests of boxes instead of on an arena and a stack. The walk does exactly that
(`build_forest`): run from a container whose children are still to visit, it ends with the children visited and the arena
showing their forest.
-/

namespace ChromeLight

/-- What a box is, apart from its children. -/
structure BoxData where
  node : Option NodeId
  kind : BoxKind
  style : LayoutStyle
deriving DecidableEq, Repr

def LayoutBox.data (b : LayoutBox) : BoxData := ⟨b.node, b.kind, b.style⟩

namespace BoxGen

/-- The data and the children of each box of an arena. -/
def entry (boxes : List LayoutBox) (id : BoxId) : Option (BoxData × List BoxId) :=
  boxes[id.index]?.map fun b => (b.data, b.children)

/-! ## The recursion -/

section

variable (Γ : FloatOps) (document : Document)

/-- Whether a box is text that `white-space: normal` collapses away. -/
def collapses (d : BoxData) : Bool := isCollapsibleText document ⟨d.node, d.kind, d.style, []⟩

/-- The end of a run: nothing for collapsible white space, else an anonymous block around it. -/
def endRun (style : LayoutStyle) (run : Forest BoxData) : Forest BoxData :=
  if run.roots.all (collapses document) then .nil
  else .cons ⟨none, .anonymousBlock, .anonymousBlock Γ style⟩ run .nil

/-- The wrapping, with the run collected so far. -/
def wrapLoop (style : LayoutStyle) : Forest BoxData → Forest BoxData → Forest BoxData
  | run, .nil => endRun Γ document style run
  | run, .cons d K R =>
    if isBlockLevel d.kind then endRun Γ document style run ++ .cons d K (wrapLoop style .nil R)
    else wrapLoop style (run ++ .cons d K .nil) R

def wrapForest (style : LayoutStyle) (built : Forest BoxData) : Forest BoxData :=
  if built.roots.any (fun d => isBlockLevel d.kind) && built.roots.any (fun d => !isBlockLevel d.kind) then
    wrapLoop Γ document style .nil built
  else built

/-- The final kind and style of a container with those boxes inside. -/
def finalForest (kind : ContainerKind) (style : LayoutStyle) (built : Forest BoxData) : BoxKind × LayoutStyle :=
  match kind with
  | .block => (.block, style)
  | .inline =>
    if built.roots.any (fun d => isBlockLevel d.kind) then (.block, { style with display := .block }) else (.inline, style)

end

theorem finalForest_kind (kind : ContainerKind) (style : LayoutStyle) (built : Forest BoxData) :
    (finalForest kind style built).1 = .block ∨ (finalForest kind style built).1 = .inline := by
  unfold finalForest
  cases kind with
  | block => exact Or.inl rfl
  | inline =>
    simp only
    split
    · exact Or.inl rfl
    · exact Or.inr rfl

/-- The box of a container, around the boxes of its children. -/
def containerForest (Γ : FloatOps) (document : Document) (node : NodeId) (kind : ContainerKind) (style : LayoutStyle)
    (built : Forest BoxData) (rest : Forest BoxData) : Forest BoxData :=
  let final := finalForest kind style built
  .cons ⟨some node, final.1, final.2⟩ (wrapForest Γ document final.2 built) rest

/-- The boxes of the nodes of a forest, under a container of that style. -/
def gen (Γ : FloatOps) (doc : StyledDocument) : LayoutStyle → Forest NodeId → Forest BoxData
  | _, .nil => .nil
  | parentStyle, .cons id kids rest =>
    match classifyChild Γ doc id parentStyle with
    | .skip => gen Γ doc parentStyle rest
    | .leaf kind style => .cons ⟨some id, kind, style⟩ .nil (gen Γ doc parentStyle rest)
    | .container kind style =>
      containerForest Γ doc.document id kind style (gen Γ doc style kids) (gen Γ doc parentStyle rest)

/-! ## What the arena shows -/

section

variable {Γ : FloatOps} {document : Document} {style : LayoutStyle} {boxes more : List LayoutBox}

theorem shows_append (more : List LayoutBox) {ids : List BoxId} {F : Forest BoxData} (h : Forest.Shows (entry boxes) ids F) :
    Forest.Shows (entry (boxes ++ more)) ids F := by
  refine h.mono ?_
  intro id x hx
  obtain ⟨b, hb, rfl⟩ := Option.map_eq_some_iff.1 hx
  rw [entry, List.getElem?_append_left (List.getElem?_eq_some_iff.1 hb).1, hb, Option.map_some]

theorem entry_new (b : LayoutBox) : entry (boxes ++ [b]) ⟨boxes.length⟩ = some (b.data, b.children) := by
  rw [entry, List.getElem?_concat_length, Option.map_some]

theorem hasLevel_of_entry {id : BoxId} {d : BoxData} {children : List BoxId} (h : entry boxes id = some (d, children))
    (blockLevel : Bool) : hasLevel boxes blockLevel id = (isBlockLevel d.kind == blockLevel) := by
  obtain ⟨b, hb, he⟩ := Option.map_eq_some_iff.1 h
  obtain ⟨rfl, rfl⟩ := Prod.mk.inj he
  rw [hasLevel, hb]
  cases hl : isBlockLevel b.kind <;> cases blockLevel <;> simp [LayoutBox.data, hl]

/-- A test of the boxes is a test of the roots they show. -/
theorem any_hasLevel_of_shows {ids : List BoxId} {F : Forest BoxData} (h : Forest.Shows (entry boxes) ids F)
    (blockLevel : Bool) : ids.any (hasLevel boxes blockLevel) = F.roots.any fun d => isBlockLevel d.kind == blockLevel := by
  induction F generalizing ids with
  | nil =>
    obtain rfl : ids = [] := h
    rfl
  | cons d K R _ ih =>
    obtain ⟨id, rest, children, rfl, he, -, hR⟩ := h
    rw [List.any_cons, Forest.roots, List.any_cons, hasLevel_of_entry he, ih hR]

theorem runIsCollapsible_of_shows {ids : List BoxId} {F : Forest BoxData} (h : Forest.Shows (entry boxes) ids F)
    (hne : ids ≠ []) : runIsCollapsibleWhitespace boxes document ids = F.roots.all (collapses document) := by
  have all : ∀ p : BoxId → Bool, (∀ id b, boxes[id.index]? = some b → p id = isCollapsibleText document b) →
      ids.all p = F.roots.all (collapses document) := by
    intro p hp
    clear hne
    induction F generalizing ids with
    | nil =>
      obtain rfl : ids = [] := h
      rfl
    | cons d K R _ ih =>
      obtain ⟨id, rest, children, rfl, he, -, hR⟩ := h
      obtain ⟨b, hb, he⟩ := Option.map_eq_some_iff.1 he
      obtain ⟨rfl, rfl⟩ := Prod.mk.inj he
      rw [List.all_cons, Forest.roots, List.all_cons, ih hR, hp id b hb]
      rfl
  unfold runIsCollapsibleWhitespace
  rw [List.isEmpty_eq_false_iff.2 hne]
  exact all _ fun id b hb => by simp only [hb]

/-- The end of a run, on the arena and on forests. -/
theorem pushOrDropRun_shows (Γ : FloatOps) (document : Document) (style : LayoutStyle) {s : WrapState}
    {run result : Forest BoxData} (hne : s.run ≠ [])
    (hrun : Forest.Shows (entry s.boxes) s.run run) (hresult : Forest.Shows (entry s.boxes) s.result result) :
    Forest.Shows (entry (pushOrDropRun Γ document style s).boxes) (pushOrDropRun Γ document style s).result
      (result ++ endRun Γ document style run) ∧ (pushOrDropRun Γ document style s).run = [] := by
  unfold pushOrDropRun endRun
  rw [runIsCollapsible_of_shows hrun hne]
  split
  · exact ⟨by rwa [Forest.append_nil], rfl⟩
  · refine ⟨Forest.Shows.append (shows_append _ hresult) ?_, rfl⟩
    exact Forest.Shows.single (entry_new _) (shows_append _ hrun)

/-- The state after the last child: a run that is left ends. -/
def endWrap (Γ : FloatOps) (document : Document) (style : LayoutStyle) (s : WrapState) : WrapState :=
  if s.run.isEmpty then s else pushOrDropRun Γ document style s

/-- The wrapping, on the arena and on forests. -/
theorem wrapLoop_shows (Γ : FloatOps) (document : Document) (style : LayoutStyle) (L : Forest BoxData)
    {l : List BoxId} {s : WrapState} {run result : Forest BoxData}
    (hl : Forest.Shows (entry s.boxes) l L) (hrun : Forest.Shows (entry s.boxes) s.run run)
    (hresult : Forest.Shows (entry s.boxes) s.result result) :
    Forest.Shows (entry (endWrap Γ document style (l.foldl (wrapStep Γ document style) s)).boxes)
      (endWrap Γ document style (l.foldl (wrapStep Γ document style) s)).result
      (result ++ wrapLoop Γ document style run L) := by
  induction L generalizing l s run result with
  | nil =>
    obtain rfl : l = [] := hl
    rw [List.foldl_nil, wrapLoop]
    unfold endWrap
    by_cases hr : s.run = []
    · rw [hr] at hrun
      simpa [Forest.Shows.eq_nil hrun, hr, endRun, Forest.roots] using hresult
    · rw [if_neg (by simpa using hr)]
      exact (pushOrDropRun_shows Γ document style hr hrun hresult).1
  | cons d K R _ ih =>
    obtain ⟨id, rest, children, rfl, he, hK, hR⟩ := hl
    rw [List.foldl_cons, wrapLoop]
    have hblock := hasLevel_of_entry he true
    cases hb : isBlockLevel d.kind with
    | true =>
      rw [hb] at hblock
      by_cases hr : s.run = []
      · rw [hr] at hrun
        have hnil : run = .nil := Forest.Shows.eq_nil hrun
        have hstep : wrapStep Γ document style s id = { s with result := s.result ++ [id] } := by
          simp [wrapStep, hblock, hr]
        have := ih (s := { s with result := s.result ++ [id] }) hR (by rw [hr]; exact Forest.shows_nil)
          (hresult.append (Forest.Shows.single he hK))
        rw [hstep]
        simpa [hnil, endRun, Forest.roots, Forest.append_assoc] using this
      · obtain ⟨hp, hpr⟩ := pushOrDropRun_shows Γ document style hr hrun hresult
        obtain ⟨more, hm⟩ := pushOrDropRun_boxes Γ document style s
        have hstep : wrapStep Γ document style s id =
            { pushOrDropRun Γ document style s with result := (pushOrDropRun Γ document style s).result ++ [id] } := by
          simp [wrapStep, hblock, hr]
        have hgrow : Forest.Shows (entry (pushOrDropRun Γ document style s).boxes) (id :: rest) (.cons d K R) := by
          rw [hm]
          exact shows_append _ ⟨id, rest, children, rfl, he, hK, hR⟩
        obtain ⟨id', rest', children', heq, he', hK', hR'⟩ := hgrow
        obtain ⟨rfl, rfl⟩ := List.cons.inj heq
        have := ih (s := { pushOrDropRun Γ document style s with
            result := (pushOrDropRun Γ document style s).result ++ [id] }) hR'
          (by rw [hpr]; exact Forest.shows_nil) (hp.append (Forest.Shows.single he' hK'))
        rw [hstep]
        simpa [Forest.append_assoc] using this
    | false =>
      rw [hb] at hblock
      have hstep : wrapStep Γ document style s id = { s with run := s.run ++ [id] } := by
        simp [wrapStep, hblock]
      rw [hstep]
      exact ih (s := { s with run := s.run ++ [id] }) hR (hrun.append (Forest.Shows.single he hK)) hresult

theorem wrapInlineRuns_shows {built : List BoxId} {B : Forest BoxData} (h : Forest.Shows (entry boxes) built B) :
    Forest.Shows (entry (wrapInlineRuns Γ boxes document built style).2)
      (wrapInlineRuns Γ boxes document built style).1 (wrapForest Γ document style B) := by
  have hb := any_hasLevel_of_shows h true
  have hi := any_hasLevel_of_shows h false
  simp only [beq_true, beq_false] at hb hi
  simp only [wrapInlineRuns, wrapForest, hb, hi]
  cases B.roots.any (fun d => isBlockLevel d.kind) && B.roots.any (fun d => !isBlockLevel d.kind) with
  | false => exact h
  | true =>
    have := wrapLoop_shows Γ document style B
      (s := { boxes, run := [], result := [] }) h Forest.shows_nil Forest.shows_nil
    rw [Forest.nil_append] at this
    simp only [Bool.not_true, Bool.false_eq_true, if_false, if_true]
    exact this

theorem finishFrame_shows (Γ : FloatOps) (document : Document) {frame : Frame} {B : Forest BoxData}
    (h : Forest.Shows (entry boxes) frame.built B) :
    Forest.Shows (entry (finishFrame Γ document frame boxes).2) [(finishFrame Γ document frame boxes).1]
      (containerForest Γ document frame.node frame.kind frame.style B .nil) := by
  have hfinal : finalizeKind frame.kind frame.style boxes frame.built = finalForest frame.kind frame.style B := by
    rw [finalizeKind_eq, any_hasLevel_of_shows h]
    simp only [beq_true]
    rfl
  unfold finishFrame containerForest
  rw [hfinal]
  exact Forest.Shows.single (entry_new _) (shows_append _ (wrapInlineRuns_shows h))

/-- The walk makes the boxes of the recursion. -/
theorem build_forest {doc : StyledDocument} {kids : NodeId → List NodeId} (t : doc.document.Tree kids) (D : Forest NodeId)
    (hD : D.Follows kids) (frame : Frame) (hc : frame.children = D.roots) (stack : List Frame) (boxes : List LayoutBox) :
    ∃ ids more, While.Steps (buildStep Γ doc) { stack := frame :: stack, boxes }
        { stack := { frame with children := [], built := frame.built ++ ids } :: stack, boxes := boxes ++ more } ∧
      Forest.Shows (entry (boxes ++ more)) ids (gen Γ doc frame.style D) := by
  induction D generalizing frame stack boxes with
  | nil =>
    refine ⟨[], [], ?_, rfl⟩
    rw [List.append_nil, List.append_nil, show ([] : List NodeId) = frame.children from hc.symm]
    exact While.Steps.refl _
  | cons id K R ihK ihR =>
    obtain ⟨hK, hK', hR'⟩ := hD
    rw [Forest.roots] at hc
    cases hcl : classifyChild Γ doc id frame.style with
    | skip =>
      obtain ⟨ids, more, hs, hshow⟩ := ihR hR' { frame with children := R.roots } rfl stack boxes
      exact ⟨ids, more, While.Steps.head (buildStep_inl.2 (.skip hc hcl)) hs, by rwa [gen, hcl]⟩
    | leaf kind style =>
      obtain ⟨ids, more, hs, hshow⟩ := ihR hR'
        { frame with children := R.roots, built := frame.built ++ [⟨boxes.length⟩] } rfl stack
        (boxes ++ [⟨some id, kind, style, []⟩])
      refine ⟨⟨boxes.length⟩ :: ids, ⟨some id, kind, style, []⟩ :: more, ?_, ?_⟩
      · have := While.Steps.head (buildStep_inl.2 (Builds.leaf hc hcl)) hs
        simpa using this
      · rw [gen, hcl, ← List.singleton_append, ← List.append_assoc]
        exact Forest.Shows.append (F := .cons _ .nil .nil)
          (shows_append _ (Forest.Shows.single (entry_new _) Forest.shows_nil)) hshow
    | container kind style =>
      let child : Frame := { node := id, style, kind, children := doc.document.children id, built := [] }
      have hchild : child.children = K.roots := (t.children_eq id).trans hK.symm
      obtain ⟨idsK, moreK, hsK, hshowK⟩ := ihK hK' child hchild ({ frame with children := R.roots } :: stack) boxes
      -- the child's box
      let done : Frame := { child with children := [], built := idsK }
      have hdone : Forest.Shows (entry (boxes ++ moreK)) done.built (gen Γ doc style K) := hshowK
      have hbox := finishFrame_shows Γ doc.document hdone
      obtain ⟨moreB, hmoreB⟩ := finishFrame_boxes Γ doc.document done (boxes ++ moreK)
      obtain ⟨ids, more, hs, hshow⟩ := ihR hR' { frame with
          children := R.roots
          built := frame.built ++ [(finishFrame Γ doc.document done (boxes ++ moreK)).1] } rfl stack
        (finishFrame Γ doc.document done (boxes ++ moreK)).2
      refine ⟨(finishFrame Γ doc.document done (boxes ++ moreK)).1 :: ids, moreK ++ (moreB ++ more), ?_, ?_⟩
      · refine While.Steps.head (buildStep_inl.2 (.container hc hcl)) (hsK.trans ?_)
        refine While.Steps.head (buildStep_inl.2 (@Builds.finish Γ doc done _ _ _ rfl)) ?_
        have : (finishFrame Γ doc.document done (boxes ++ moreK)).2 ++ more = boxes ++ (moreK ++ (moreB ++ more)) := by
          rw [hmoreB]
          simp only [List.append_assoc]
        rw [← this]
        simpa using hs
      · rw [gen, hcl]
        have hgrow := shows_append more hbox
        rw [hmoreB] at hgrow hshow
        simp only [List.append_assoc] at hgrow hshow
        exact Forest.Shows.append (show Forest.Shows _ [_] _ from hgrow) hshow

end

end BoxGen

end ChromeLight
