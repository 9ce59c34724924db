import ChromeLight.Sheets
import ChromeLight.Theorems.Traverse
import ChromeLight.Theorems.TreeSink

/-!
# The sheets of a document

Collecting stylesheets goes through the tree of the document once and in order: every `<style>` and every `<link>` below the root
brings its sheet or its warning, and nothing else does (`collectDocumentSheets_exact`). One sheet that does not load stops none of
the others.
-/

namespace ChromeLight

namespace Style

open Net StyleEngine

variable {υ ρ : Type} {C : UrlCrate υ ρ} {load : υ → Except NetError Bytes} {doc : Document} {kids : NodeId → List NodeId} {base : υ}
  {id : NodeId}

/-- A node that links a stylesheet, by that reference. -/
def Links (doc : Document) (id : NodeId) (href : StrTendril) : Prop :=
  (∃ e, doc.element id = some e ∧ e.name.localName = "link") ∧ relHasStylesheetToken ((doc.attr id "rel").getD []) = true ∧
    doc.attr id "href" = some href

/-- The text of a node, if it is one. -/
def textOf (doc : Document) (id : NodeId) : StrTendril :=
  match (doc.get id).map Node.kind with
  | some (.text t) => t
  | _ => []

/-- What a node of the tree brings: a sheet, or the warning that there is none. -/
inductive Brings (C : UrlCrate υ ρ) (load : υ → Except NetError Bytes) (doc : Document) (kids : NodeId → List NodeId) (base : υ)
    (id : NodeId) : Except SheetWarning (Sheet υ) → Prop where
  | style {e : Element} {F : Forest NodeId} (he : doc.element id = some e) (hname : e.name.localName = "style")
      (hF : F.roots = kids id) (hfollows : F.Follows kids) :
      Brings C load doc kids base id (.ok { css := F.preorder.flatMap (textOf doc), base, origin := .author })
  | link {href : StrTendril} {url own : υ} {bytes : Bytes} (h : Links doc id href) (hurl : Url.join C base (.ofList href) = .ok url)
      (hload : load url = .ok bytes) (hown : C.parse (C.asStr url) = .ok own) :
      Brings C load doc kids base id (.ok { css := Utf8.lossy bytes, base := own, origin := .author })
  | unresolved {href : StrTendril} {e : NetError} (h : Links doc id href) (hurl : Url.join C base (.ofList href) = .error e) :
      Brings C load doc kids base id (.error ⟨.ofList href, e.message⟩)
  | unloaded {href : StrTendril} {url : υ} {e : NetError} (h : Links doc id href) (hurl : Url.join C base (.ofList href) = .ok url)
      (hload : load url = .error e) : Brings C load doc kids base id (.error ⟨C.asStr url, e.message⟩)
  | unparsed {href : StrTendril} {url : υ} {bytes : Bytes} {e : String} (h : Links doc id href)
      (hurl : Url.join C base (.ofList href) = .ok url) (hload : load url = .ok bytes) (hown : C.parse (C.asStr url) = .error e) :
      Brings C load doc kids base id (.error ⟨C.asStr url, (StyleError.url e).message⟩)

/-- The engine and the warnings with what one more node brought. -/
def bring (s : StyleEngine υ × List SheetWarning) : Except SheetWarning (Sheet υ) → StyleEngine υ × List SheetWarning
  | .ok sheet => ({ s.1 with stylist := s.1.stylist ++ [sheet], author := s.1.author ++ [sheet] }, s.2)
  | .error warning => (s.1, s.2 ++ [warning])

variable {s : StyleEngine υ × List SheetWarning}

theorem addAuthorSheet_eq (engine : StyleEngine υ) (css : StrTendril) (text : String) : addAuthorSheet C engine css text =
    match C.parse text with
    | .error e => .error (.url e)
    | .ok base => .ok (bring (engine, []) (.ok { css, base, origin := .author })).1 := by
  unfold addAuthorSheet buildAndAppend
  cases C.parse text <;> rfl

theorem bring_inj {r r' : Except SheetWarning (Sheet υ)} (h : bring s r = bring s r') : r = r' := by
  cases r <;> cases r' <;> simp [bring] at h
  all_goals rw [h]

theorem bring_ne (r : Except SheetWarning (Sheet υ)) : bring s r ≠ s := by
  intro h
  cases r with
  | ok sheet => simpa [bring] using congrArg (fun s : StyleEngine υ × List SheetWarning => s.1.stylist.length) h
  | error warning => simpa [bring] using congrArg (fun s : StyleEngine υ × List SheetWarning => s.2.length) h

/-- The text of a `<style>` is that of the tree below it. -/
theorem textContent_eq (t : doc.Tree kids) {F : Forest NodeId} (hF : F.roots = kids id) (hfollows : F.Follows kids) :
    textContent doc id = F.preorder.flatMap (textOf doc) := by
  rw [textContent, t.descendants_eq hF hfollows]
  rfl

theorem Links.collectNode_eq {href : StrTendril} (h : Links doc id href) : collectNode C load doc base s id = .ok
    (match Url.join C base (.ofList href) with
    | .error e => bring s (.error ⟨.ofList href, e.message⟩)
    | .ok url =>
      match load url with
      | .error e => bring s (.error ⟨C.asStr url, e.message⟩)
      | .ok bytes =>
        match C.parse (C.asStr url) with
        | .error e => bring s (.error ⟨C.asStr url, (StyleError.url e).message⟩)
        | .ok own => bring s (.ok { css := Utf8.lossy bytes, base := own, origin := .author })) := by
  obtain ⟨⟨e, he, hname⟩, hrel, hhref⟩ := h
  have hstyle : e.name.localName ≠ "style" := by
    rw [hname]
    decide
  rw [collectNode, he]
  dsimp only
  rw [if_neg hstyle, if_pos hname, collectLink, hrel, Bool.not_true, if_neg Bool.false_ne_true, hhref]
  dsimp only
  congr 1
  cases Url.join C base (.ofList href) with
  | error e => rfl
  | ok url =>
    dsimp only
    cases load url with
    | error e => rfl
    | ok bytes =>
      dsimp only
      rw [addAuthorSheet_eq]
      cases C.parse (C.asStr url) <;> rfl

/-- What a node brings is added. -/
theorem Brings.collectNode_eq (t : doc.Tree kids) (hbase : C.parse doc.baseUrl = .ok base) {r : Except SheetWarning (Sheet υ)}
    (h : Brings C load doc kids base id r) : collectNode C load doc base s id = .ok (bring s r) := by
  cases h with
  | style he hname hF hfollows =>
    rw [collectNode, he]
    dsimp only
    rw [if_pos hname, addAuthorSheet_eq, hbase, textContent_eq t hF hfollows]
    rfl
  | link h hurl hload hown => rw [h.collectNode_eq, hurl]; simp only [hload, hown]
  | unresolved h hurl => rw [h.collectNode_eq, hurl]
  | unloaded h hurl hload => rw [h.collectNode_eq, hurl]; simp only [hload]
  | unparsed h hurl hload hown => rw [h.collectNode_eq, hurl]; simp only [hload, hown]

/-- A link brings something. -/
theorem Links.exists_brings {href : StrTendril} (h : Links doc id href) : ∃ r, Brings C load doc kids base id r := by
  cases hurl : Url.join C base (.ofList href) with
  | error e => exact ⟨_, .unresolved h hurl⟩
  | ok url =>
    cases hload : load url with
    | error e => exact ⟨_, .unloaded h hurl hload⟩
    | ok bytes =>
      cases hown : C.parse (C.asStr url) with
      | error e => exact ⟨_, .unparsed h hurl hload hown⟩
      | ok own => exact ⟨_, .link h hurl hload hown⟩

/-- A node brings something, or it is passed over. -/
theorem brings_or_eq (t : doc.Tree kids) (C : UrlCrate υ ρ) (load : υ → Except NetError Bytes) (base : υ) (id : NodeId) :
    (∃ r, Brings C load doc kids base id r) ∨ ∀ s, collectNode C load doc base s id = .ok s := by
  cases he : doc.element id with
  | none =>
    right
    intro s
    rw [collectNode, he]
  | some e =>
    by_cases hstyle : e.name.localName = "style"
    · obtain ⟨F, hF, hfollows, -⟩ := t.exists_subtree id
      exact .inl ⟨_, .style he hstyle hF hfollows⟩
    · by_cases hlink : e.name.localName = "link"
      · by_cases hrel : relHasStylesheetToken ((doc.attr id "rel").getD []) = true
        · cases hhref : doc.attr id "href" with
          | none =>
            right
            intro s
            rw [collectNode, he]
            dsimp only
            rw [if_neg hstyle, if_pos hlink, collectLink, hrel, Bool.not_true, if_neg Bool.false_ne_true, hhref]
          | some href => exact .inl (Links.exists_brings ⟨⟨e, he, hlink⟩, hrel, hhref⟩)
        · right
          intro s
          rw [collectNode, he]
          dsimp only
          rw [if_neg hstyle, if_pos hlink, collectLink, if_pos (by simpa using hrel)]
      · right
        intro s
        rw [collectNode, he]
        dsimp only
        rw [if_neg hstyle, if_neg hlink]

/-- What the nodes of a list bring, each once and in order. -/
structure Outcomes (C : UrlCrate υ ρ) (load : υ → Except NetError Bytes) (doc : Document) (kids : NodeId → List NodeId) (base : υ)
    (ids : List NodeId) (outcomes : List (NodeId × Except SheetWarning (Sheet υ))) : Prop where
  inOrder : (outcomes.map Prod.fst).Sublist ids
  exact : ∀ id r, (id, r) ∈ outcomes ↔ id ∈ ids ∧ Brings C load doc kids base id r

/-- The sheets among the outcomes. -/
def sheets (outcomes : List (NodeId × Except SheetWarning (Sheet υ))) : List (Sheet υ) :=
  outcomes.filterMap fun outcome => outcome.2.toOption

/-- The warnings among the outcomes. -/
def warnings (outcomes : List (NodeId × Except SheetWarning (Sheet υ))) : List SheetWarning :=
  outcomes.filterMap fun outcome =>
    match outcome.2 with
    | .ok _ => none
    | .error warning => some warning

/-- The walk over a list of nodes. -/
theorem foldlM_collectNode (t : doc.Tree kids) (hbase : C.parse doc.baseUrl = .ok base) (load : υ → Except NetError Bytes)
    (ids : List NodeId) :
    ∃ outcomes, Outcomes C load doc kids base ids outcomes ∧ ids.foldlM (collectNode C load doc base) s = .ok
      ({ s.1 with stylist := s.1.stylist ++ sheets outcomes, author := s.1.author ++ sheets outcomes }, s.2 ++ warnings outcomes) := by
  induction ids generalizing s with
  | nil => exact ⟨[], ⟨List.Sublist.refl _, by simp⟩, by simp [sheets, warnings, pure, Except.pure]⟩
  | cons id ids ih =>
    rw [List.foldlM_cons]
    rcases brings_or_eq t C load base id with ⟨r, hr⟩ | hpass
    · obtain ⟨outcomes, ho, heq⟩ := ih (s := bring s r)
      refine ⟨(id, r) :: outcomes, ⟨ho.inOrder.cons_cons id, ?_⟩, ?_⟩
      · intro id' r'
        rw [List.mem_cons, ho.exact, List.mem_cons]
        constructor
        · rintro (⟨⟨⟩⟩ | ⟨hid', hr'⟩)
          · exact ⟨.inl rfl, hr⟩
          · exact ⟨.inr hid', hr'⟩
        · rintro ⟨rfl | hid', hr'⟩
          · left
            have := (hr.collectNode_eq t hbase (s := s)).symm.trans (hr'.collectNode_eq t hbase)
            rw [bring_inj (Except.ok.inj this)]
          · exact .inr ⟨hid', hr'⟩
      · rw [hr.collectNode_eq t hbase]
        refine heq.trans ?_
        cases r <;> simp [bring, sheets, warnings, Except.toOption]
    · obtain ⟨outcomes, ho, heq⟩ := ih (s := s)
      refine ⟨outcomes, ⟨ho.inOrder.cons id, ?_⟩, ?_⟩
      · intro id' r'
        rw [ho.exact, List.mem_cons]
        constructor
        · rintro ⟨hid', hr'⟩
          exact ⟨.inr hid', hr'⟩
        · rintro ⟨rfl | hid', hr'⟩
          · have := (hr'.collectNode_eq t hbase (s := s)).symm.trans (hpass s)
            exact absurd (Except.ok.inj this) (bring_ne r')
          · exact ⟨hid', hr'⟩
      · rw [hpass]
        exact heq

/-- Without a base URL nothing is collected. -/
theorem collectDocumentSheets_error {text : String} (h : C.parse doc.baseUrl = .error text) (engine : StyleEngine υ) :
    collectDocumentSheets C load engine doc = .error (.url (NetError.url text).message) := by
  rw [collectDocumentSheets, Url.parse, h]
  rfl

/-- The walk over a document. -/
theorem collectDocumentSheets_tree (t : doc.Tree kids) (hbase : C.parse doc.baseUrl = .ok base) (load : υ → Except NetError Bytes)
    (engine : StyleEngine υ) :
    ∃ (F : Forest NodeId) (outcomes : _), F.roots = kids doc.root ∧ F.Follows kids ∧
      Outcomes C load doc kids base F.preorder outcomes ∧ collectDocumentSheets C load engine doc = .ok
        ({ engine with stylist := engine.stylist ++ sheets outcomes, author := engine.author ++ sheets outcomes },
          warnings outcomes) := by
  obtain ⟨F, hF, hfollows, -⟩ := t.exists_subtree doc.root
  obtain ⟨outcomes, houtcomes, hwalk⟩ := foldlM_collectNode t hbase load F.preorder (s := (engine, []))
  refine ⟨F, outcomes, hF, hfollows, houtcomes, ?_⟩
  rw [collectDocumentSheets, Url.parse, hbase, t.descendants_eq hF hfollows]
  exact hwalk

/-- Of every parsed document, whatever its links load: each `<style>` and each linking `<link>` of its tree brings its one sheet
or warning, in document order, and nothing else is added; a file in UTF-8 brings its text. Only a base URL that does not parse is
an error. -/
theorem collectDocumentSheets_exact (C : UrlCrate υ ρ) (load : υ → Except NetError Bytes) (engine : StyleEngine υ) (baseUrl : String)
    (calls : List DomSink.TreeCall) :
    ∃ output kids, DomSink.parse baseUrl calls = .some output ∧ output.document.Tree kids ∧
      (∀ text, C.parse baseUrl = .error text →
        collectDocumentSheets C load engine output.document = .error (.url (NetError.url text).message)) ∧
      ∀ base, C.parse baseUrl = .ok base → ∃ (F : Forest NodeId) (outcomes : _), F.roots = kids output.document.root ∧
        F.Follows kids ∧ Outcomes C load output.document kids base F.preorder outcomes ∧
        collectDocumentSheets C load engine output.document = .ok
          ({ engine with stylist := engine.stylist ++ sheets outcomes, author := engine.author ++ sheets outcomes },
            warnings outcomes) ∧
        ∀ id ∈ F.preorder, ∀ href url own text, Links output.document id href → Url.join C base (.ofList href) = .ok url →
          C.parse (C.asStr url) = .ok own → load url = .ok (text.flatMap String.utf8EncodeChar) →
          { css := text, base := own, origin := .author } ∈ sheets outcomes := by
  obtain ⟨output, kids, hparse, t, hurl⟩ := DomSink.tree_of_parse baseUrl calls
  refine ⟨output, kids, hparse, t, ?_, ?_⟩
  · intro text htext
    exact collectDocumentSheets_error (by rwa [hurl]) engine
  · intro base hbase
    obtain ⟨F, outcomes, hF, hfollows, houtcomes, hwalk⟩ := collectDocumentSheets_tree t (by rwa [hurl]) load engine
    refine ⟨F, outcomes, hF, hfollows, houtcomes, hwalk, ?_⟩
    intro id hid href url own text hlinks hjoin hown hload
    have hbrings : Brings C load output.document kids base id _ := .link hlinks hjoin hload hown
    rw [Utf8.lossy_flatMap] at hbrings
    exact List.mem_filterMap.2 ⟨(id, .ok _), (houtcomes.exact id _).2 ⟨hid, hbrings⟩, rfl⟩

end Style

end ChromeLight
