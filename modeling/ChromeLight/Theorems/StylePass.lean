import ChromeLight.Lemmas.StylePass
import ChromeLight.Theorems.Net

/-!
# A style pass keeps one record for each node

Whatever Stylo calls through the handles it has, the answers are those of one record for each node (`Session.run_eq_records`): the
cells of a slot, its flag for data and the links of the arena do not show, and guards only keep out borrows that overlap. What an
element is asked for is computed once (`Pass.asks_once`), and the styles of the document are what the calls leave of the data of its
elements (`cascadeDocument_computed`).
-/

namespace ChromeLight

namespace Style

open Document (Tree)
open Forest (Child)

variable {doc : Document} {kids : NodeId → List NodeId} {done : List NodeId} {id : NodeId} {n : Node}
  {υ ρ δ β φ γ : Type} [Inhabited δ] [DecidableEq φ] {S : Stylo υ δ β φ γ} {C : Net.UrlCrate υ ρ} {r r' : Records δ φ}
  {pass pass' : Pass δ β φ} {thread : ThreadId}

/-! ## The start -/

omit [DecidableEq φ] in
/-- The pass that Stylo finds is the one of the records. -/
theorem Pass.exists_start (t : Tree doc kids) {root : NodeId} (hroot : rootElement doc = some root) (owner : ThreadId) :
    ∃ (pass : Pass δ β φ) (done : List NodeId), Pass.start S doc owner = some (some pass) ∧
      pass.Refines S C kids done (Records.start S doc owner root) := by
  obtain ⟨hmem, helement⟩ := rootElement_spec t hroot
  obtain ⟨n, hn⟩ := t.get_child hmem
  let store : Store δ β φ := Store.new doc.len owner
  have hlength : store.slots.length = doc.len := List.length_replicate
  obtain ⟨arena, hnew⟩ : ∃ arena, NodeArena.new doc store.styleStore = some arena := ⟨_, if_pos hlength⟩
  obtain ⟨done, hlinking⟩ := linking_link t hnew
  have hhandle : arena.element root = (some root, arena.link) := by
    have hwith := hlinking.withId hn
    rw [NodeArena.withId] at hwith
    simp only [NodeArena.element, NodeArena.node]
    rw [hwith, Option.bind_some, hlinking.asElement, if_pos helement]
  have hslot : ∀ id m, doc.get id = some m → store.slot id = .new := by
    intro id m hid
    simp [store, Store.slot, Store.new, Tree.index_lt_len hid]
  let blank : Pass δ β φ :=
    { arena := arena.link, store, nodes := [], elements := [root], interned := [], parsed := [] }
  let records : Records δ φ :=
    { doc, owner, record := fun _ => {}, nodes := [], elements := [root], askedIds := [], askedStyles := [] }
  have hblank : blank.Refines S C kids done records := by
    refine ⟨hlinking, ⟨hlength, rfl, rfl, fun id m hid => ?_⟩, rfl, rfl, rfl, rfl⟩
    rw [hslot id m hid]
    exact Slot.is_new List.not_mem_nil List.not_mem_nil
  have hdata : Slot.Is S C records root { (records.record root) with data := some (S.insertRestyleSubtree default) }
      { store.slot root with present := true, data := S.insertRestyleSubtree (store.slot root).data } := by
    rw [hslot root n hn]
    exact { (Slot.is_new List.not_mem_nil List.not_mem_nil : Slot.Is S C records root {} .new) with present := rfl, data := rfl }
  refine ⟨_, done, ?_, hblank.modify (f := fun record => { record with data := some (S.insertRestyleSubtree default) }) hn hdata⟩
  have howner : store.assertOwnerThread owner = some () := if_pos rfl
  simp only [Pass.start, hroot]
  rw [hnew]
  simp only [Option.bind_eq_bind, Option.bind_some, hhandle, Store.ensureData]
  rw [howner]
  rfl

/-- The runs of a pass are those of the records. -/
theorem Pass.run_alike (t : Tree doc kids) {root : NodeId} {owner : ThreadId}
    (hstart : pass.Refines S C kids done (Records.start S doc owner root)) (hroot : rootElement doc = some root)
    (calls : List (ThreadId × Call δ φ)) :
    Calls.Alike (fun p r => p.Refines S C kids done r ∧ r.doc = doc ∧ r.Sound kids)
      (Calls.run (Pass.call S C) pass calls) (Calls.run (Records.call S C) (Records.start S doc owner root) calls) := by
  refine Calls.run_alike ?_ ⟨hstart, rfl, (Records.history_start t hroot owner).sound⟩ calls
  rintro p r k ⟨hrefines, hdoc, hsound⟩
  exact Pass.call_alike t hrefines hdoc hsound k

omit [DecidableEq φ] in
/-- Where there is a pass, there is a root element. -/
theorem Pass.of_start (t : Tree doc kids) {owner : ThreadId} (hstart : Pass.start S doc owner = some (some pass))
    (C : Net.UrlCrate υ ρ) : ∃ root done, rootElement doc = some root ∧
      pass.Refines S C kids done (Records.start S doc owner root) := by
  cases hroot : rootElement doc with
  | none =>
    simp only [Pass.start, hroot] at hstart
    nomatch hstart
  | some root =>
    obtain ⟨pass', done, hpass', hrefines⟩ := Pass.exists_start (S := S) (C := C) t hroot owner
    obtain rfl := Option.some.inj (Option.some.inj (hstart.symm.trans hpass'))
    exact ⟨root, done, rfl, hrefines⟩

/-- A run of the pass, and the records after it. -/
theorem Pass.exists_records (t : Tree doc kids) {root : NodeId} {owner : ThreadId} {calls : List (ThreadId × Call δ φ)}
    {answers : List (Answer δ β φ)} (hstart : pass.Refines S C kids done (Records.start S doc owner root))
    (hroot : rootElement doc = some root) (hrun : Calls.run (Pass.call S C) pass calls = some (answers, pass')) :
    ∃ r', pass'.Refines S C kids done r' ∧ Records.History S doc kids owner root calls r' := by
  have halike := Pass.run_alike t hstart hroot calls
  rw [hrun] at halike
  obtain ⟨r', hrecords, hrefines, -⟩ := halike.exists_of_some
  refine ⟨r', hrefines, ?_⟩
  have hhistory := Calls.run_history (fun past r k a r' h hcall => h.call t hcall) (Records.history_start t hroot owner) hrecords
  exact hhistory

/-! ## What Stylo sees -/

/-- A document with one element, which has an `id` and a `style`. -/
def oneStyled : Document :=
  let p : Element :=
    { name := ⟨none, "", "p"⟩, templateContents := none
      attrs := [⟨⟨none, "", "id"⟩, ['a']⟩, ⟨⟨none, "", "style"⟩, ['c']⟩] }
  ((Document.new "file:///").create (.element p)).2.linkLast (.fromIndex 0) (.fromIndex 1)

theorem reachable_oneStyled : oneStyled.Reachable :=
  (Document.Reachable.new "file:///").append _ _ _ (by decide) (by decide) rfl rfl

/-- Data are a number, and numbers from two on hold a primary style. -/
def Stylo.sample : Stylo String Nat StrTendril Nat Nat where
  eqAtom
    | .caseSensitive, a, b => a = b
    | .asciiCaseInsensitive, a, b => Ascii.eqIgnoreCase a b
  layoutKeeps isElement isText := isElement || isText
  parseStyleAttribute css _ _ := css
  forSelf := {0}
  forParent := {1}
  directions := [{2, 3}, {3}, {2}]
  insertRestyleSubtree data := data + 1
  getPrimary data := if data < 2 then none else some data
  admits
    | live, .shared => .exclusive ∉ live
    | live, .exclusive => live = []

theorem Stylo.tracks_sample : Stylo.sample.Tracks where
  shared _ := decide_eq_true_iff
  exclusive _ := decide_eq_true_iff

omit [DecidableEq φ] in
/-- The start of a session: nothing is borrowed. -/
theorem Session.refines_start (t : Tree doc kids) {root : NodeId} {owner : ThreadId}
    (hstart : pass.Refines S C kids done (Records.start S doc owner root)) (hroot : rootElement doc = some root) :
    (⟨pass, []⟩ : Session δ β φ).Refines S C kids done doc owner (Records.start S doc owner root) where
  pass := hstart
  doc := rfl
  owner := rfl
  sound := (Records.history_start t hroot owner).sound
  borrows _ h := nomatch h

/-- A session is answered as the calls that its events are. -/
theorem Session.run_refines (law : S.Tracks) (t : Tree doc kids) {owner : ThreadId} {session session' : Session δ β φ}
    (h : session.Refines S C kids done doc owner r) {events : List (Event δ φ)} {answers : List (Option (Answer δ β φ))}
    (hrun : Calls.run (Session.step S C) session events = some (answers, session')) :
    ∃ r', Calls.run (Records.call S C) r (events.filterMap (Event.asCall owner)) = some (answers.reduceOption, r') ∧
      session'.Refines S C kids done doc owner r' := by
  refine Calls.run_filterMap (R := Session.Refines S C kids done doc owner) ?_ ?_ h hrun
  · intro session r event k a session' h hk hstep
    cases event with
    | call thread call =>
      obtain rfl := Option.some.inj hk
      exact h.call law t hstep
    | written element write =>
      obtain rfl := Option.some.inj hk
      exact h.written t hstep
    | dropped element access => nomatch hk
  · intro session r event a session' h hk hstep
    cases event with
    | call thread call => nomatch hk
    | written element write => nomatch hk
    | dropped element access => exact h.dropped hstep

/-- On the thread of a pass only the tracker of the borrows refuses a call. -/
theorem Session.Refines.isSome_step (law : S.Tracks) (t : Tree doc kids) {owner : ThreadId} {session : Session δ β φ}
    (h : session.Refines S C kids done doc owner r) {call : Call δ φ} (hheld : session.pass.Holds call.handle = true) :
    (session.step S C (.call owner call)).isSome = true ↔
      ∀ b ∈ call.borrow session.pass.store, ∀ access, (b.1, access) ∈ session.borrows → b.2 = .shared ∧ access = .shared := by
  have ht : Tree r.doc kids := h.doc.symm ▸ t
  have hperform := h.pass.perform ht h.sound owner call (h.pass.holds call.handle ▸ hheld)
  have hsome : (session.pass.call S C (owner, call)).isSome = true := by
    rw [Pass.call, if_pos hheld, ← Option.isSome_map, hperform.answers_eq, Option.isSome_map]
    exact Records.isSome_perform h.owner.symm call
  obtain ⟨⟨answer, pass'⟩, hcall⟩ := Option.isSome_iff_exists.1 hsome
  have hstep : (session.step S C (.call owner call)).isSome = (call.borrow session.pass.store).all (session.Free S) := by
    cases hfree : (call.borrow session.pass.store).all (session.Free S) with
    | true => simp [Session.step, hfree, hcall]
    | false => simp [Session.step, hfree]
  rw [hstep, Option.all_eq_true]
  exact forall₂_congr fun b _ => Session.free_iff law

/-- Whatever Stylo calls through the handles it has, and however long it borrows the data it is handed out, the answers are those of
one record for each node. No call comes to the scratch slot, and on the thread of the pass none is refused but where borrows overlap:
a call is answered wherever the borrows of its element have ended. -/
theorem Session.run_eq_records (law : S.Tracks) (t : Tree doc kids) {root : NodeId} (hroot : rootElement doc = some root) (owner : ThreadId) :
    ∃ pass : Pass δ β φ, Pass.start S doc owner = some (some pass) ∧
      (∀ calls, (Calls.run (Pass.call S C) pass calls).map Prod.fst =
        (Calls.run (Records.call S C) (Records.start S doc owner root) calls).map Prod.fst) ∧
      ∀ events answers session', Calls.run (Session.step S C) ⟨pass, []⟩ events = some (answers, session') →
        (Calls.run (Records.call S C) (Records.start S doc owner root) (events.filterMap (Event.asCall owner))).map Prod.fst =
          some answers.reduceOption ∧
        session'.pass.store.scratch = .new ∧
        ∀ call, session'.pass.Holds call.handle = true →
          ((session'.step S C (.call owner call)).isSome = true ↔ ∀ b ∈ call.borrow session'.pass.store, ∀ access,
            (b.1, access) ∈ session'.borrows → b.2 = .shared ∧ access = .shared) := by
  obtain ⟨pass, done, hpass, hstart⟩ := Pass.exists_start (S := S) (C := C) t hroot owner
  refine ⟨pass, hpass, fun calls => (Pass.run_alike t hstart hroot calls).answers_eq, fun events answers session' hrun => ?_⟩
  obtain ⟨r', hrecords, hrefines⟩ := Session.run_refines law t (Session.refines_start t hstart hroot) hrun
  refine ⟨?_, hrefines.pass.store.scratch, fun call hheld => hrefines.isSome_step law t hheld⟩
  rw [hrecords, Option.map_some]

/-- While its data are written, an element is asked for its `id`. In the end one borrows them to read. -/
def oneGuarded : List (Event Nat Nat) :=
  let p : NodeId := .fromIndex 1
  [.call 0 (.ensureData p fun data => data), .call 0 (.id p), .written p fun _ => 7, .dropped p .exclusive, .call 0 (.borrowData p)]

/-- Data that one reads can be read, and not be written. -/
theorem Session.run_eq_records_oneGuarded :
    ∃ (pass : Pass Nat StrTendril Nat) (answers : List (Option (Answer Nat StrTendril Nat))) (session' : Session Nat StrTendril Nat),
      Pass.start Stylo.sample oneStyled 0 = some (some pass) ∧
      Calls.run (Session.step Stylo.sample Net.plainUrls) ⟨pass, []⟩ oneGuarded = some (answers, session') ∧
      (Calls.run (Records.call Stylo.sample Net.plainUrls) (Records.start Stylo.sample oneStyled 0 (.fromIndex 1))
        (oneGuarded.filterMap (Event.asCall 0))).map Prod.fst = some answers.reduceOption ∧
      (session'.step Stylo.sample Net.plainUrls (.call 0 (.borrowData (.fromIndex 1)))).isSome = true ∧
      (session'.step Stylo.sample Net.plainUrls (.call 0 (.mutateData (.fromIndex 1) fun _ => 8))).isSome = false := by
  obtain ⟨kids, t⟩ := reachable_oneStyled.tree
  have hroot : rootElement oneStyled = some (.fromIndex 1) := rfl
  obtain ⟨pass, hstart, -, hsession⟩ :=
    Session.run_eq_records (β := StrTendril) (S := Stylo.sample) (C := Net.plainUrls) Stylo.tracks_sample t hroot 0
  have hruns : ∀ pass answers session', Pass.start Stylo.sample oneStyled 0 = some (some pass) →
      Calls.run (Session.step Stylo.sample Net.plainUrls) ⟨pass, []⟩ oneGuarded = some (answers, session') → _ :=
    fun pass' answers session' hstart' hrun =>
      hsession oneGuarded answers session' (Option.some.inj (Option.some.inj (hstart.symm.trans hstart')) ▸ hrun)
  obtain ⟨hanswers, -, hfree⟩ := hruns _ _ _ rfl rfl
  refine ⟨_, _, _, rfl, rfl, hanswers, (hfree _ (by decide)).2 ?_, rfl⟩
  intro b hb access hmem
  obtain rfl : ((.fromIndex 1 : NodeId), Access.shared) = b := Option.some.inj hb
  have hlive : ((.fromIndex 1 : NodeId), access) ∈ [((.fromIndex 1 : NodeId), Access.shared)] := hmem
  obtain ⟨-, rfl⟩ := Prod.mk.inj (List.mem_singleton.1 hlive)
  exact ⟨rfl, rfl⟩

/-- In a pass the `id` of an element is interned once at most, and its `style` is parsed once at most: where they were asked for. -/
theorem Pass.asks_once (t : Tree doc kids) {owner : ThreadId} (hstart : Pass.start S doc owner = some (some pass))
    {calls : List (ThreadId × Call δ φ)} {answers : List (Answer δ β φ)}
    (hrun : Calls.run (Pass.call S C) pass calls = some (answers, pass')) :
    (pass'.interned.Nodup ∧
      ∀ id, id ∈ pass'.interned ↔ (∃ k ∈ calls, k.2.asksId = some id) ∧ (doc.attr id "id").isSome = true) ∧
    pass'.parsed.Nodup ∧
      ∀ id, id ∈ pass'.parsed ↔ (∃ k ∈ calls, k.2.asksStyle = some id) ∧ (declarations S C doc id).isSome = true := by
  obtain ⟨root, done, hroot, hrefines⟩ := Pass.of_start t hstart C
  obtain ⟨r', hrefines', hhistory⟩ := Pass.exists_records t hrefines hroot hrun
  rw [hrefines'.interned, hrefines'.parsed, hhistory.doc]
  refine ⟨⟨hhistory.idsNodup.filter _, fun id => ?_⟩, hhistory.stylesNodup.filter _, fun id => ?_⟩
  · rw [List.mem_filter, hhistory.askedIds]
  · rw [List.mem_filter, hhistory.askedStyles]

/-- The `id` is asked for twice and interned once; the `style` is not asked for. -/
theorem Pass.asks_once_oneStyled : ∃ (pass pass' : Pass Nat StrTendril Nat) (answers : List (Answer Nat StrTendril Nat)),
    Pass.start Stylo.sample oneStyled 0 = some (some pass) ∧
    Calls.run (Pass.call Stylo.sample Net.plainUrls) pass
      [(0, .id (.fromIndex 1)), (0, .hasId (.fromIndex 1) ['a'] .caseSensitive)] = some (answers, pass') ∧
    pass'.interned = [.fromIndex 1] ∧ pass'.interned.Nodup ∧ pass'.parsed.Nodup ∧ .fromIndex 1 ∉ pass'.parsed := by
  obtain ⟨kids, t⟩ := reachable_oneStyled.tree
  have honce : ∀ (pass pass' : Pass Nat StrTendril Nat) answers, Pass.start Stylo.sample oneStyled 0 = some (some pass) →
      Calls.run (Pass.call Stylo.sample Net.plainUrls) pass
        [(0, .id (.fromIndex 1)), (0, .hasId (.fromIndex 1) ['a'] .caseSensitive)] = some (answers, pass') →
      pass'.interned.Nodup ∧ pass'.parsed.Nodup ∧ .fromIndex 1 ∉ pass'.parsed := by
    intro pass pass' answers hstart hrun
    obtain ⟨⟨hinterned, -⟩, hparsed, hmem⟩ := Pass.asks_once t hstart hrun
    refine ⟨hinterned, hparsed, ?_⟩
    rw [hmem]
    rintro ⟨⟨k, hk, hasks⟩, -⟩
    rcases List.mem_cons.1 hk with rfl | hk
    · nomatch hasks
    · obtain rfl := List.mem_singleton.1 hk
      nomatch hasks
  exact ⟨_, _, _, rfl, rfl, rfl, honce _ _ _ rfl rfl⟩

/-! ## The styles of a document -/

omit [DecidableEq φ] in
/-- What can be read of a node in the store is the data of its record. -/
theorem Pass.Refines.get_eq (h : pass.Refines S C kids done r) (t : Tree r.doc kids) (hr : r.Sound kids) (id : NodeId) :
    pass.store.get id = (r.record id).data := by
  cases hid : r.doc.get id with
  | some n => exact h.store.get_eq hid
  | none =>
    -- a node that is not of the document has the scratch slot, and no data
    have hnone : (r.record id).data = none := by
      rw [← Option.not_isSome_iff_eq_none]
      intro hdata
      obtain ⟨n, hn⟩ := (hr.styled id hdata).1.known t
      simp [hid] at hn
    have hlt : pass.store.slots.length ≤ id.index := by
      rw [h.store.length]
      exact List.getElem?_eq_none_iff.1 hid
    rw [hnone, Store.get, Store.slot, List.getElem?_eq_none hlt, Option.getD_none, h.store.scratch]
    rfl

theorem computed_set {γ : Type} {styles : List (Option γ)} {style : Option γ} (hid : id.index < styles.length) (c : NodeId) :
    computed (styles.set id.index style) c = if c = id then style else computed styles c := by
  by_cases hc : c = id
  · subst hc
    simp [computed, hid]
  · have hne : id.index ≠ c.index := fun h => hc (NodeId.ext_index h.symm)
    simp [computed, List.getElem?_set_ne hne, hc]

theorem computed_replicate (n : Nat) (id : NodeId) : computed (List.replicate n (none : Option γ)) id = none := by
  rw [computed, List.getElem?_replicate]
  split <;> rfl

omit [Inhabited δ] [DecidableEq φ] in
/-- The primary style of one node is lifted out of a store. -/
theorem liftStyle_spec (S : Stylo υ δ β φ γ) (store : Store δ β φ) {styles : List (Option γ)} (hid : id.index < styles.length) :
    (liftStyle S store styles id).length = styles.length ∧
    ∀ c, computed (liftStyle S store styles id) c =
      if c = id then ((store.get c).bind S.getPrimary).or (computed styles c) else computed styles c := by
  cases hstyle : (store.get id).bind S.getPrimary with
  | none =>
    have hlift : liftStyle S store styles id = styles := by simp [liftStyle, hstyle]
    rw [hlift]
    refine ⟨rfl, fun c => ?_⟩
    split
    · rename_i hc
      rw [hc, hstyle, Option.none_or]
    · rfl
  | some primary =>
    have hlift : liftStyle S store styles id = styles.set id.index (some primary) := by simp [liftStyle, hstyle]
    rw [hlift]
    refine ⟨List.length_set, fun c => ?_⟩
    rw [computed_set hid]
    split
    · rename_i hc
      rw [hc, hstyle, Option.some_or]
    · rfl

omit [Inhabited δ] [DecidableEq φ] in
/-- The styles that are lifted out of a store one after the other. -/
theorem foldl_liftStyle (S : Stylo υ δ β φ γ) (store : Store δ β φ) (ids : List NodeId) {styles : List (Option γ)}
    (h : ∀ id ∈ ids, id.index < styles.length) :
    (ids.foldl (liftStyle S store) styles).length = styles.length ∧
    ∀ c, computed (ids.foldl (liftStyle S store) styles) c =
      if c ∈ ids then ((store.get c).bind S.getPrimary).or (computed styles c) else computed styles c := by
  induction ids generalizing styles with
  | nil => exact ⟨rfl, fun c => (if_neg List.not_mem_nil).symm⟩
  | cons id ids ih =>
    obtain ⟨hlength, hone⟩ := liftStyle_spec S store (h id List.mem_cons_self)
    have hids : ∀ c ∈ ids, c.index < (liftStyle S store styles id).length := by
      intro c hc
      rw [hlength]
      exact h c (List.mem_cons_of_mem _ hc)
    have hrest := ih hids
    rw [List.foldl_cons]
    refine ⟨hrest.1.trans hlength, fun c => ?_⟩
    rw [hrest.2, hone]
    by_cases hc : c = id
    · subst hc
      by_cases hmem : c ∈ ids
      · cases (store.get c).bind S.getPrimary <;> simp [hmem]
      · simp [hmem]
    · simp [hc]

/-- The nodes below the root are its descendants. -/
theorem mem_descendants_root (t : Tree doc kids) : id ∈ doc.descendants doc.root ↔ Below doc kids id ∧ id ≠ doc.root := by
  obtain ⟨F, hF, hFF, hnodup, hroot, -⟩ := t.exists_subtree doc.root
  rw [t.descendants_eq hF hFF]
  have hwhole : (Forest.cons doc.root F .nil).Follows kids := ⟨hF, hFF, trivial⟩
  have hmem := hwhole.mem_preorder_iff rfl id
  rw [Forest.preorder, Forest.preorder, List.append_nil, List.mem_cons] at hmem
  rw [Below, ← hmem]
  constructor
  · intro h
    exact ⟨.inr h, fun heq => hroot (heq ▸ h)⟩
  · rintro ⟨heq | h, hne⟩
    · exact absurd heq hne
    · exact h

omit [DecidableEq φ] in
/-- What has data after some calls is an element below the root. -/
theorem Records.History.styled {owner : ThreadId} {root : NodeId} {past : List (ThreadId × Call δ φ)}
    (h : Records.History S doc kids owner root past r) (t : Tree doc kids) (hkind : doc.element doc.root = none)
    (hdata : (Call.dataAfter S root past id).isSome = true) : id ∈ doc.descendants doc.root ∧ isElement doc id = true := by
  rw [← h.data] at hdata
  obtain ⟨hbelow, helement⟩ := h.sound.styled id hdata
  rw [h.doc] at hbelow helement
  refine ⟨(mem_descendants_root t).2 ⟨hbelow, ?_⟩, helement⟩
  rintro rfl
  rw [isElement_iff, hkind] at helement
  nomatch helement

/-- The style of a node is the primary one in what the calls leave of its data. A node without data has none, and what is not an
element has no data. -/
theorem cascadeDocument_computed (t : Tree doc kids) (hkind : doc.element doc.root = none) {owner : ThreadId}
    {calls : List (ThreadId × Call δ φ)} {styles : List (Option γ)} (h : cascadeDocument S C doc owner calls = some styles) :
    styles.length = doc.len ∧
    (∀ id, computed styles id = (rootElement doc).bind fun root => (Call.dataAfter S root calls id).bind S.getPrimary) ∧
    ∀ id, doc.element id = none → computed styles id = none := by
  cases hroot : rootElement doc with
  | none =>
    simp only [cascadeDocument, Pass.start, hroot] at h
    obtain rfl := Option.some.inj h
    exact ⟨List.length_replicate, computed_replicate doc.len, fun id _ => computed_replicate doc.len id⟩
  | some root =>
    obtain ⟨pass, done, hpass, hrefines⟩ := Pass.exists_start (S := S) (C := C) t hroot owner
    simp only [cascadeDocument, hpass, Option.bind_eq_bind, Option.bind_some] at h
    obtain ⟨⟨answers, pass'⟩, hrun, hlift⟩ := Option.bind_eq_some_iff.1 h
    obtain rfl := Option.some.inj hlift
    obtain ⟨r', hrefines', hhistory⟩ := Pass.exists_records t hrefines hroot hrun
    have ht : Tree r'.doc kids := hhistory.doc.symm ▸ t
    have hknown : ∀ id ∈ doc.descendants doc.root, id.index < (List.replicate doc.len (none : Option γ)).length := by
      intro id hid
      obtain ⟨n, hn⟩ := ((mem_descendants_root t).1 hid).1.known t
      rw [List.length_replicate]
      exact Tree.index_lt_len hn
    obtain ⟨hlength, hlifted⟩ := foldl_liftStyle S pass'.store (doc.descendants doc.root) hknown
    have hcomputed : ∀ id, computed (liftStyles S doc pass'.store) id = (Call.dataAfter S root calls id).bind S.getPrimary := by
      intro id
      rw [liftStyles, hlifted, computed_replicate, Option.or_none, hrefines'.get_eq ht hhistory.sound, hhistory.data]
      by_cases hmem : id ∈ doc.descendants doc.root
      · rw [if_pos hmem]
      · rw [if_neg hmem]
        cases hdata : Call.dataAfter S root calls id with
        | none => rfl
        | some data => exact absurd (hhistory.styled t hkind (by rw [hdata]; rfl)).1 hmem
    refine ⟨hlength.trans List.length_replicate, hcomputed, fun id helement => ?_⟩
    rw [hcomputed]
    cases hdata : Call.dataAfter S root calls id with
    | none => rfl
    | some data =>
      have hisElement := (hhistory.styled t hkind (by rw [hdata]; rfl)).2
      rw [isElement_iff, helement] at hisElement
      nomatch hisElement

/-- A document with two elements, one in the other. -/
def twoStyled : Document :=
  (oneStyled.create (.element { name := ⟨none, "", "b"⟩, templateContents := none, attrs := [] })).2.linkLast (.fromIndex 1)
    (.fromIndex 2)

theorem reachable_twoStyled : twoStyled.Reachable :=
  reachable_oneStyled.append _ _ _ (by decide) (by decide) rfl rfl

/-- The data of the outer element are cleared, and made anew and changed; those of the inner one are made and cleared. -/
def twoCalls : List (ThreadId × Call Nat Nat) :=
  let p : NodeId := .fromIndex 1
  let b : NodeId := .fromIndex 2
  [(0, .followElement .firstElementChild p), (0, .ensureData p fun _ => 7), (0, .ensureData b fun _ => 5), (0, .clearData p),
    (0, .ensureData p fun data => data + 3), (0, .mutateData p fun data => data * 2), (0, .clearData b)]

theorem cascadeDocument_computed_twoStyled :
    cascadeDocument Stylo.sample Net.plainUrls twoStyled 0 twoCalls = some [none, some 6, none] ∧
    ∀ id, computed [none, some 6, none] id = (rootElement twoStyled).bind fun root =>
      (Call.dataAfter Stylo.sample root twoCalls id).bind Stylo.sample.getPrimary := by
  obtain ⟨kids, t⟩ := reachable_twoStyled.tree
  have h : cascadeDocument Stylo.sample Net.plainUrls twoStyled 0 twoCalls = some [none, some 6, none] := rfl
  exact ⟨h, (cascadeDocument_computed t rfl h).2.1⟩

end Style

end ChromeLight
