import Mathlib.Algebra.GroupWithZero.Nat

/-!
# UTF-8 read with replacements

Text from bytes that need not be UTF-8: where no character can be read, the bytes that could still have begun one become U+FFFD.
Bytes that are the UTF-8 of a text are read as that text (`lossy_flatMap`).
-/

namespace Utf8

/-- What stands for bytes that are no character. -/
def replacement : Char := '\uFFFD'

/-- How many bytes a character has that begins with that byte; zero where none does. -/
def width (first : UInt8) : Nat :=
  if first < 0x80 then 1
  else if first < 0xC2 then 0
  else if first < 0xE0 then 2
  else if first < 0xF0 then 3
  else if first < 0xF5 then 4
  else 0

/-- The byte goes on with a character. -/
def isContinuation (b : UInt8) : Bool := 0x80 ≤ b && b ≤ 0xBF

/-- Whether a character that begins with the first byte may go on with the second. -/
def secondFits (first second : UInt8) : Bool :=
  if first = 0xE0 then 0xA0 ≤ second && second ≤ 0xBF
  else if first = 0xED then 0x80 ≤ second && second ≤ 0x9F
  else if first = 0xF0 then 0x90 ≤ second && second ≤ 0xBF
  else if first = 0xF4 then 0x80 ≤ second && second ≤ 0x8F
  else isContinuation second

/-- The bits of a continuation behind those before it. -/
def extend (value : Nat) (b : UInt8) : Nat := value * 64 + b.toNat % 64

/-- The character whose last so many bytes are still to be read, and the bytes behind them; from the byte on that does not fit,
where there is one. -/
def continuations : Nat → Nat → List UInt8 → Char × List UInt8
  | 0, value, bytes => (.ofNat value, bytes)
  | _ + 1, _, [] => (replacement, [])
  | n + 1, value, b :: bytes =>
    if isContinuation b then continuations n (extend value b) bytes else (replacement, b :: bytes)

/-- The character that begins with a byte, and the bytes behind it. -/
def next (first : UInt8) (bytes : List UInt8) : Char × List UInt8 :=
  match width first with
  | 0 => (replacement, bytes)
  | 1 => (.ofNat first.toNat, bytes)
  | n + 2 =>
    match bytes with
    | [] => (replacement, [])
    | second :: bytes =>
      if secondFits first second then continuations n (extend (first.toNat % 2 ^ (5 - n)) second) bytes
      else (replacement, second :: bytes)

/-- The text of so many bytes at most. -/
def lossyFrom : Nat → List UInt8 → List Char
  | _, [] => []
  | 0, _ :: _ => []
  | n + 1, first :: bytes =>
    let (c, bytes) := next first bytes
    c :: lossyFrom n bytes

/-- The text of bytes, with replacements. -/
def lossy (bytes : List UInt8) : List Char := lossyFrom bytes.length bytes

/-- Reading on leaves no more than there was. -/
theorem length_continuations (n value : Nat) (bytes : List UInt8) : (continuations n value bytes).2.length ≤ bytes.length := by
  fun_induction continuations n value bytes with
  | case1 => exact Nat.le_refl _
  | case2 => exact Nat.le_refl _
  | case3 n value b bytes h ih => exact Nat.le_succ_of_le ih
  | case4 => exact Nat.le_refl _

/-- Reading a character leaves no more than there was. -/
theorem length_next (first : UInt8) (bytes : List UInt8) : (next first bytes).2.length ≤ bytes.length := by
  unfold next
  split
  · exact Nat.le_refl _
  · exact Nat.le_refl _
  · split
    · exact Nat.le_refl _
    · split
      · exact Nat.le_succ_of_le (length_continuations _ _ _)
      · exact Nat.le_refl _

/-- Fuel for every byte is enough. -/
theorem lossyFrom_eq {n m : Nat} {bytes : List UInt8} (hn : bytes.length ≤ n) (hm : bytes.length ≤ m) :
    lossyFrom n bytes = lossyFrom m bytes := by
  induction n generalizing m bytes with
  | zero =>
    obtain rfl := List.eq_nil_of_length_eq_zero (Nat.le_zero.1 hn)
    cases m <;> rfl
  | succ n ih =>
    cases bytes with
    | nil => cases m <;> rfl
    | cons first bytes =>
      cases m with
      | zero => exact absurd hm (by simp)
      | succ m =>
        have hlen := length_next first bytes
        rw [List.length_cons] at hn hm
        simp only [lossyFrom]
        rw [ih (m := m) (by omega) (by omega)]

/-- Decoding is reading one character after another. -/
theorem lossy_cons (first : UInt8) (bytes : List UInt8) :
    lossy (first :: bytes) = (next first bytes).1 :: lossy (next first bytes).2 := by
  simp only [lossy, List.length_cons, lossyFrom]
  rw [lossyFrom_eq (length_next first bytes) (Nat.le_refl _)]

/-! ## The bytes of a text -/

/-- The width of a character, by its first byte. -/
theorem width_eq (first : UInt8) : width first =
    if first.toNat < 0x80 then 1 else if first.toNat < 0xC2 then 0 else if first.toNat < 0xE0 then 2
    else if first.toNat < 0xF0 then 3 else if first.toNat < 0xF5 then 4 else 0 := by
  simp only [width, UInt8.lt_iff_toNat_lt, UInt8.reduceToNat]

/-- The continuation bytes, as numbers. -/
theorem isContinuation_iff {b : UInt8} : isContinuation b = true ↔ 0x80 ≤ b.toNat ∧ b.toNat ≤ 0xBF := by
  simp only [isContinuation, UInt8.le_iff_toNat_le, UInt8.reduceToNat, Bool.and_eq_true, decide_eq_true_eq]

/-- The second bytes that fit, as numbers. -/
theorem secondFits_iff {first second : UInt8} : secondFits first second = true ↔
    (0x80 ≤ second.toNat ∧ second.toNat ≤ 0xBF) ∧ (first.toNat = 0xE0 → 0xA0 ≤ second.toNat) ∧
      (first.toNat = 0xED → second.toNat ≤ 0x9F) ∧ (first.toNat = 0xF0 → 0x90 ≤ second.toNat) ∧
      (first.toNat = 0xF4 → second.toNat ≤ 0x8F) := by
  have heq : ∀ b : UInt8, first = b ↔ first.toNat = b.toNat := fun b => UInt8.toNat_inj.symm
  simp only [secondFits, heq, UInt8.reduceToNat]
  split
  · simp only [UInt8.le_iff_toNat_le, UInt8.reduceToNat, Bool.and_eq_true, decide_eq_true_eq]
    omega
  split
  · simp only [UInt8.le_iff_toNat_le, UInt8.reduceToNat, Bool.and_eq_true, decide_eq_true_eq]
    omega
  split
  · simp only [UInt8.le_iff_toNat_le, UInt8.reduceToNat, Bool.and_eq_true, decide_eq_true_eq]
    omega
  split
  · simp only [UInt8.le_iff_toNat_le, UInt8.reduceToNat, Bool.and_eq_true, decide_eq_true_eq]
    omega
  · rw [isContinuation_iff]
    omega

/-- Reading one more continuation byte. -/
theorem continuations_cons {n value : Nat} {b : UInt8} {bytes : List UInt8} (h : 0x80 ≤ b.toNat ∧ b.toNat ≤ 0xBF) :
    continuations (n + 1) value (b :: bytes) = continuations n (extend value b) bytes := by
  rw [continuations, if_pos (isContinuation_iff.2 h)]

/-- Reading a character of more than one byte. -/
theorem next_of_width {n : Nat} {first second : UInt8} {bytes : List UInt8} (hw : width first = n + 2)
    (h : secondFits first second = true) :
    next first (second :: bytes) = continuations n (extend (first.toNat % 2 ^ (5 - n)) second) bytes := by
  simp only [next, hw, h, if_true]

/-- A byte is its number. -/
theorem toNat_ofNat {n : Nat} (h : n < 256) : (UInt8.ofNat n).toNat = n := UInt8.toNat_ofNat_of_lt' h

/-- A character is its number. -/
theorem ofNat_toNat {c : Char} {n : Nat} (h : n = c.toNat) : Char.ofNat n = c := by rw [h, Char.ofNat_toNat]

/-- What is read first from the bytes of a character is the character. -/
theorem next_utf8EncodeChar {c : Char} {first : UInt8} {tail : List UInt8} (h : String.utf8EncodeChar c = first :: tail)
    (bytes : List UInt8) : next first (tail ++ bytes) = (c, bytes) := by
  have hc : c.val.toNat = c.toNat := rfl
  have hvalid : c.toNat < 0xD800 ∨ 0xDFFF < c.toNat ∧ c.toNat < 0x110000 := c.valid
  simp only [String.utf8EncodeChar, hc] at h
  split at h
  · obtain ⟨rfl, rfl⟩ := List.cons.inj h
    have hfirst : (UInt8.ofNat c.toNat).toNat = c.toNat := toNat_ofNat (by omega)
    have hw : width (UInt8.ofNat c.toNat) = 1 := by
      rw [width_eq, hfirst, if_pos (by omega)]
    simp only [next, hw, hfirst, Char.ofNat_toNat, List.nil_append]
  split at h
  · obtain ⟨rfl, rfl⟩ := List.cons.inj h
    have h₁ : (UInt8.ofNat (c.toNat / 64 % 32 + 192)).toNat = c.toNat / 64 % 32 + 192 := toNat_ofNat (by omega)
    have h₂ : (UInt8.ofNat (c.toNat % 64 + 128)).toNat = c.toNat % 64 + 128 := toNat_ofNat (by omega)
    have hw : width (UInt8.ofNat (c.toNat / 64 % 32 + 192)) = 0 + 2 := by
      rw [width_eq, h₁]
      repeat' split
      all_goals omega
    have hfits : secondFits (UInt8.ofNat (c.toNat / 64 % 32 + 192)) (UInt8.ofNat (c.toNat % 64 + 128)) = true := by
      rw [secondFits_iff, h₁, h₂]
      omega
    rw [List.cons_append, List.nil_append, next_of_width hw hfits, continuations, extend, h₁, h₂, ofNat_toNat]
    omega
  split at h
  · obtain ⟨rfl, rfl⟩ := List.cons.inj h
    have h₁ : (UInt8.ofNat (c.toNat / 4096 % 16 + 224)).toNat = c.toNat / 4096 % 16 + 224 := toNat_ofNat (by omega)
    have h₂ : (UInt8.ofNat (c.toNat / 64 % 64 + 128)).toNat = c.toNat / 64 % 64 + 128 := toNat_ofNat (by omega)
    have h₃ : (UInt8.ofNat (c.toNat % 64 + 128)).toNat = c.toNat % 64 + 128 := toNat_ofNat (by omega)
    have hw : width (UInt8.ofNat (c.toNat / 4096 % 16 + 224)) = 1 + 2 := by
      rw [width_eq, h₁]
      repeat' split
      all_goals omega
    have hfits : secondFits (UInt8.ofNat (c.toNat / 4096 % 16 + 224)) (UInt8.ofNat (c.toNat / 64 % 64 + 128)) = true := by
      rw [secondFits_iff, h₁, h₂]
      omega
    rw [List.cons_append, List.cons_append, List.nil_append, next_of_width hw hfits, continuations_cons (by omega), continuations,
      extend, extend, h₁, h₂, h₃, ofNat_toNat]
    omega
  · obtain ⟨rfl, rfl⟩ := List.cons.inj h
    have h₁ : (UInt8.ofNat (c.toNat / 262144 % 8 + 240)).toNat = c.toNat / 262144 % 8 + 240 := toNat_ofNat (by omega)
    have h₂ : (UInt8.ofNat (c.toNat / 4096 % 64 + 128)).toNat = c.toNat / 4096 % 64 + 128 := toNat_ofNat (by omega)
    have h₃ : (UInt8.ofNat (c.toNat / 64 % 64 + 128)).toNat = c.toNat / 64 % 64 + 128 := toNat_ofNat (by omega)
    have h₄ : (UInt8.ofNat (c.toNat % 64 + 128)).toNat = c.toNat % 64 + 128 := toNat_ofNat (by omega)
    have hw : width (UInt8.ofNat (c.toNat / 262144 % 8 + 240)) = 2 + 2 := by
      rw [width_eq, h₁]
      repeat' split
      all_goals omega
    have hfits : secondFits (UInt8.ofNat (c.toNat / 262144 % 8 + 240)) (UInt8.ofNat (c.toNat / 4096 % 64 + 128)) = true := by
      rw [secondFits_iff, h₁, h₂]
      omega
    rw [List.cons_append, List.cons_append, List.cons_append, List.nil_append, next_of_width hw hfits,
      continuations_cons (by omega), continuations_cons (by omega), continuations, extend, extend, extend, h₁, h₂, h₃, h₄, ofNat_toNat]
    omega

/-- Reading takes back writing. -/
theorem lossy_flatMap (text : List Char) : lossy (text.flatMap String.utf8EncodeChar) = text := by
  induction text with
  | nil => rfl
  | cons c text ih =>
    cases h : String.utf8EncodeChar c with
    | nil => exact absurd h (by simp [String.utf8EncodeChar_ne_nil])
    | cons first tail =>
      rw [List.flatMap_cons, h, List.cons_append, lossy_cons, next_utf8EncodeChar h, ih]

end Utf8
