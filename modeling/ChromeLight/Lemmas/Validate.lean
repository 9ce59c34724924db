import ChromeLight.DisplayList

/-!
# What the validator accepts

`validate` accepts a display list exactly if its bounds are valid, it has not too many items, every item fits at the number
of clips open before it (`DisplayItem.Fits`), and no clip is open at its end (`validate_eq_ok`).
-/

namespace ChromeLight

/-- What an item has to be at a number of open clips. -/
def DisplayItem.Fits (inflated : InflatedBounds) (depth : Nat) : DisplayItem → Prop
  | .rect r _ => rectIsValid r = true ∧ inflated.intersectsRect r = true
  | .border r widths _ =>
    (rectIsValid r = true ∧ inflated.intersectsRect r = true) ∧ borderWidthsValid r widths = true
  | .text run => run.glyphs.length ≤ maxGlyphsPerRun ∧ inflated.containsPoint run.origin = true ∧ glyphsFit run = true
  | .pushClip r => (rectIsValid r = true ∧ inflated.intersectsRect r = true) ∧ depth + 1 ≤ maxClipDepth
  | .popClip => depth ≠ 0

/-- The number of clips open after an item. -/
def depthAfter (depth : Nat) : DisplayItem → Nat
  | .pushClip _ => depth + 1
  | .popClip => depth - 1
  | .rect .. | .border .. | .text .. => depth

/-- The items fit, one after the other, from a number of open clips on. -/
def ItemsFit (inflated : InflatedBounds) : Nat → List DisplayItem → Prop
  | _, [] => True
  | depth, item :: items => item.Fits inflated depth ∧ ItemsFit inflated (depthAfter depth item) items

variable {inflated : InflatedBounds} {index depth : Nat}

theorem ItemsFit_append {a b : List DisplayItem} :
    ItemsFit inflated depth (a ++ b) ↔ ItemsFit inflated depth a ∧ ItemsFit inflated (a.foldl depthAfter depth) b := by
  induction a generalizing depth with
  | nil => simp [ItemsFit]
  | cons item a ih => simp only [List.cons_append, ItemsFit, List.foldl_cons, ih, and_assoc]

theorem checkRect_eq_ok {rect : Rect} :
    checkRect rect index inflated = .ok () ↔ rectIsValid rect = true ∧ inflated.intersectsRect rect = true := by
  unfold checkRect
  cases rectIsValid rect <;> cases inflated.intersectsRect rect <;> simp

theorem checkTextRun_eq_ok {run : GlyphRun} :
    checkTextRun run index inflated = .ok () ↔
      run.glyphs.length ≤ maxGlyphsPerRun ∧ inflated.containsPoint run.origin = true ∧ glyphsFit run = true := by
  unfold checkTextRun
  by_cases hlen : run.glyphs.length > maxGlyphsPerRun
  · simp only [if_pos hlen, reduceCtorEq, false_iff]
    intro h
    exact absurd h.1 (Nat.not_le.2 hlen)
  · rw [if_neg hlen]
    cases inflated.containsPoint run.origin <;> cases glyphsFit run <;> simp [Nat.le_of_not_lt hlen]

/-- A check that only fails or passes, followed by the next one. -/
theorem bind_eq_ok {ε α : Type} {c : Except ε Unit} {next : Except ε α} {a : α} :
    (c >>= fun _ => next) = .ok a ↔ c = .ok () ∧ next = .ok a := by
  cases c with
  | error e => simp [bind, Except.bind]
  | ok u => cases u; simp [bind, Except.bind]

theorem checkItem_eq_ok {item : DisplayItem} {d : Nat} :
    checkItem inflated index depth item = .ok d ↔ item.Fits inflated depth ∧ d = depthAfter depth item := by
  cases item with
  | rect rect color =>
    simp only [checkItem, bind_eq_ok, checkRect_eq_ok, DisplayItem.Fits, depthAfter]
    simp [pure, Except.pure, eq_comm (a := d)]
  | border rect widths colors =>
    simp only [checkItem, bind_eq_ok, checkRect_eq_ok, DisplayItem.Fits, depthAfter]
    cases borderWidthsValid rect widths <;> simp [pure, Except.pure, eq_comm (a := d)]
  | text run =>
    simp only [checkItem, bind_eq_ok, checkTextRun_eq_ok, DisplayItem.Fits, depthAfter]
    simp [pure, Except.pure, eq_comm (a := d)]
  | pushClip rect =>
    simp only [checkItem, bind_eq_ok, checkRect_eq_ok, DisplayItem.Fits, depthAfter]
    by_cases hdepth : depth + 1 > maxClipDepth
    · simp only [if_pos hdepth, reduceCtorEq, and_false, Nat.not_le.2 hdepth, false_and]
    · simp only [if_neg hdepth, pure, Except.pure, Except.ok.injEq, Nat.le_of_not_lt hdepth, and_true, eq_comm (a := d)]
  | popClip =>
    simp only [checkItem, DisplayItem.Fits, depthAfter]
    by_cases hdepth : depth = 0
    · simp [hdepth]
    · simp [hdepth, pure, Except.pure, eq_comm (a := d)]

theorem checkItems_eq_ok {items : List DisplayItem} {d : Nat} :
    checkItems inflated index depth items = .ok d ↔ ItemsFit inflated depth items ∧ d = items.foldl depthAfter depth := by
  induction items generalizing index depth with
  | nil => simp [checkItems, ItemsFit, pure, Except.pure, eq_comm (a := d)]
  | cons item items ih =>
    simp only [checkItems, ItemsFit, List.foldl_cons]
    cases hc : checkItem inflated index depth item with
    | error e =>
      have hno : ¬item.Fits inflated depth := by
        intro hfits
        have : checkItem inflated index depth item = .ok _ := checkItem_eq_ok.2 ⟨hfits, rfl⟩
        rw [hc] at this
        cases this
      simp [bind, Except.bind, hno]
    | ok d' =>
      obtain ⟨hfits, rfl⟩ := checkItem_eq_ok.1 hc
      simp only [bind, Except.bind, ih, hfits, true_and]

/-- `validate` accepts what is described by its four limits. -/
theorem validate_eq_ok {dl : DisplayList} {bounds : Rect} :
    validate dl bounds = .ok () ↔ boundsIsValid bounds = true ∧ dl.items.length ≤ maxItems ∧
      ItemsFit (inflate bounds) 0 dl.items ∧ dl.items.foldl depthAfter 0 = 0 := by
  unfold validate
  cases hb : boundsIsValid bounds with
  | false => simp
  | true =>
    by_cases hlen : dl.items.length > maxItems
    · simp [hlen]
    · simp only [Bool.not_true, Bool.false_eq_true, if_false, hlen, true_and, Nat.le_of_not_lt hlen]
      cases hc : checkItems (inflate bounds) 0 0 dl.items with
      | error e =>
        have hno : ¬ItemsFit (inflate bounds) 0 dl.items := by
          intro hfits
          have : checkItems (inflate bounds) 0 0 dl.items = .ok _ := checkItems_eq_ok.2 ⟨hfits, rfl⟩
          rw [hc] at this
          cases this
        simp [bind, Except.bind, hno]
      | ok d =>
        obtain ⟨hfits, rfl⟩ := checkItems_eq_ok.1 hc
        by_cases hd : dl.items.foldl depthAfter 0 = 0
        · simp [bind, Except.bind, hfits, hd]
        · simp [bind, Except.bind, hd]

end ChromeLight
