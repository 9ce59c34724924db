import Mathlib.Algebra.GroupWithZero.Nat

/-!
# Wire formats

A format writes a value as no more than a number of bytes, and reads it back from them and from any bytes after them, which it
leaves (`Format.read_write`). Formats are built from that of numbers in groups of seven bits, the lowest group first
(`varint`): pairs of formats (`pair`), a format that depends on a value written before it (`dependent`), and a format for values
that are read as those of another (`refine`).
-/

namespace Wire

inductive ReadError where
  /-- The bytes end inside a value. -/
  | unexpectedEnd
  /-- The bytes stand for no value. -/
  | badValue
deriving DecidableEq, Repr

/-- The number in at most `k + 1` bytes. -/
def writeVarint : Nat → Nat → List UInt8
  | 0, n => [UInt8.ofNat n]
  | k + 1, n => if n < 128 then [UInt8.ofNat n] else UInt8.ofNat (n % 128 + 128) :: writeVarint k (n / 128)

/-- A number of at most `k + 1` bytes. -/
def readVarint : Nat → List UInt8 → Except ReadError (Nat × List UInt8)
  | _, [] => .error .unexpectedEnd
  | 0, b :: rest => if b.toNat < 128 then .ok (b.toNat, rest) else .error .badValue
  | k + 1, b :: rest =>
    if b.toNat < 128 then .ok (b.toNat, rest)
    else
      match readVarint k rest with
      | .error e => .error e
      | .ok (n, rest) => .ok (b.toNat - 128 + 128 * n, rest)

theorem toNat_ofNat {n : Nat} (h : n < 256) : (UInt8.ofNat n).toNat = n := by
  rw [UInt8.toNat_ofNat']
  exact Nat.mod_eq_of_lt h

theorem length_writeVarint_le (k n : Nat) : (writeVarint k n).length ≤ k + 1 := by
  induction k generalizing n with
  | zero => exact Nat.le_refl _
  | succ k ih =>
    unfold writeVarint
    split
    · exact Nat.succ_le_succ (Nat.zero_le _)
    · exact Nat.succ_le_succ (ih _)

theorem readVarint_writeVarint {k n : Nat} (h : n < 128 ^ (k + 1)) (rest : List UInt8) :
    readVarint k (writeVarint k n ++ rest) = .ok (n, rest) := by
  induction k generalizing n with
  | zero =>
    have hn : n < 128 := by simpa using h
    simp only [writeVarint, List.singleton_append, readVarint, toNat_ofNat (Nat.lt_trans hn (by decide)), if_pos hn]
  | succ k ih =>
    unfold writeVarint
    split
    · rename_i hn
      simp only [List.singleton_append, readVarint, toNat_ofNat (Nat.lt_trans hn (by decide)), if_pos hn]
    · have hdiv : n / 128 < 128 ^ (k + 1) := Nat.div_lt_of_lt_mul (by rwa [Nat.pow_succ, Nat.mul_comm] at h)
      have hbyte : n % 128 + 128 < 256 := by omega
      simp only [List.cons_append, readVarint, toNat_ofNat hbyte, ih hdiv, if_neg (Nat.not_lt.2 (Nat.le_add_left 128 (n % 128)))]
      rw [Nat.add_sub_cancel, Nat.mod_add_div]

/-- How values are written and read. -/
structure Format (α : Type) where
  size : Nat
  write : α → List UInt8
  read : List UInt8 → Except ReadError (α × List UInt8)
  length_write_le : ∀ a, (write a).length ≤ size
  read_write : ∀ a rest, read (write a ++ rest) = .ok (a, rest)

namespace Format

variable {α β : Type}

def varint (k : Nat) : Format (Fin (128 ^ (k + 1))) where
  size := k + 1
  write n := writeVarint k n
  read bytes :=
    match readVarint k bytes with
    | .error e => .error e
    | .ok (n, rest) => if h : n < 128 ^ (k + 1) then .ok (⟨n, h⟩, rest) else .error .badValue
  length_write_le n := length_writeVarint_le k n
  read_write n rest := by simp only [readVarint_writeVarint n.isLt, n.isLt, dif_pos]

/-- Nothing is written. -/
def unit : Format Unit where
  size := 0
  write _ := []
  read bytes := .ok ((), bytes)
  length_write_le _ := Nat.le_refl _
  read_write _ _ := rfl

/-- A value after another on which its format depends. -/
def dependent {ι : Type} {γ : ι → Type} (tag : Format ι) (f : ∀ i, Format (γ i)) (n : Nat) (hn : ∀ i, (f i).size ≤ n) :
    Format (Σ i, γ i) where
  size := tag.size + n
  write a := tag.write a.1 ++ (f a.1).write a.2
  read bytes :=
    match tag.read bytes with
    | .error e => .error e
    | .ok (i, rest) =>
      match (f i).read rest with
      | .error e => .error e
      | .ok (c, rest) => .ok (⟨i, c⟩, rest)
  length_write_le a := by
    rw [List.length_append]
    exact Nat.add_le_add (tag.length_write_le _) (Nat.le_trans ((f a.1).length_write_le _) (hn _))
  read_write a rest := by simp only [List.append_assoc, tag.read_write, (f a.1).read_write]

/-- Values that are written as those of another format. -/
def refine (f : Format α) (forth : β → α) (back : α → Option β) (h : ∀ b, back (forth b) = some b) : Format β where
  size := f.size
  write b := f.write (forth b)
  read bytes :=
    match f.read bytes with
    | .error e => .error e
    | .ok (a, rest) =>
      match back a with
      | none => .error .badValue
      | some b => .ok (b, rest)
  length_write_le b := f.length_write_le (forth b)
  read_write b rest := by simp only [f.read_write, h]

def pair (f : Format α) (g : Format β) : Format (α × β) :=
  (dependent f (fun _ => g) g.size (fun _ => Nat.le_refl _)).refine (fun p => ⟨p.1, p.2⟩) (fun s => some (s.1, s.2))
    (fun _ => rfl)

/-- The variants of an enumeration by their numbers. -/
def variant {ι : Type} (number : ι → Nat) (hlt : ∀ i, number i < 128 ^ 5) (ofNumber : Nat → Option ι)
    (h : ∀ i, ofNumber (number i) = some i) : Format ι :=
  (varint 4).refine (fun i => ⟨number i, hlt i⟩) (fun n => ofNumber n) h

def bool : Format Bool :=
  (varint 0).refine (fun b => if b then 1 else 0) (fun n => if n = 0 then some false else if n = 1 then some true else none)
    (by decide)

def uint32 : Format UInt32 :=
  (varint 4).refine (fun v => ⟨v.toNat, Nat.lt_trans v.toNat_lt (by decide)⟩)
    (fun n => if n.val < 2 ^ 32 then some (UInt32.ofNat n.val) else none)
    (by
      intro v
      rw [if_pos v.toNat_lt, UInt32.ofNat_toNat])

def uint64 : Format UInt64 :=
  (varint 9).refine (fun v => ⟨v.toNat, Nat.lt_trans v.toNat_lt (by decide)⟩)
    (fun n => if n.val < 2 ^ 64 then some (UInt64.ofNat n.val) else none)
    (by
      intro v
      rw [if_pos v.toNat_lt, UInt64.ofNat_toNat])

end Format

end Wire
