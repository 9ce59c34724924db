import ChromeLight.Geom
import Mathlib.Algebra.GroupWithZero.Nat

/-!
# The size of the viewport

A viewport is a number of pixels in each direction, a `u32`; it becomes an `f32`, which is rounded, and the `f32` becomes app
units, through an exact product in `f64`. Both conversions are on the bits. Up to 16777216 pixels they lose nothing
(`fromPxF32_ofU32`).
-/

namespace ChromeLight

namespace F32

def sign (x : F32) : Nat := x.bits.toNat / 2 ^ 31

def exponent (x : F32) : Nat := x.bits.toNat / 2 ^ 23 % 2 ^ 8

def fraction (x : F32) : Nat := x.bits.toNat % 2 ^ 23

/-- Neither infinite nor NaN. -/
def isFinite (x : F32) : Bool := x.exponent ≠ 255

/-- Whether a finite number is larger than zero. -/
def isPositive (x : F32) : Bool := x.sign = 0 ∧ x.bits ≠ 0

/-- The number of times `2 ^ k` fits, rounded to the nearest, and to the even one of two. -/
def roundHalfEven (n k : Nat) : Nat :=
  if 2 * (n % 2 ^ k) < 2 ^ k ∨ 2 * (n % 2 ^ k) = 2 ^ k ∧ n / 2 ^ k % 2 = 0 then n / 2 ^ k else n / 2 ^ k + 1

/-- The leading 24 bits of a number. -/
def significandOf (n : Nat) : Nat := if n.log2 ≤ 23 then n * 2 ^ (23 - n.log2) else roundHalfEven n (n.log2 - 23)

/-- `n as f32`. A significand that is rounded up to 25 bits carries into the exponent. -/
def ofU32 (n : UInt32) : F32 :=
  if n = 0 then ⟨0⟩ else ⟨.ofNat ((n.toNat.log2 + 126) * 2 ^ 23 + significandOf n.toNat)⟩

end F32

/-- The magnitude of `px * 60.0`, rounded half away from zero; where it is infinite, a number that is not an `i32`. -/
def pxMagnitude (px : F32) : Nat :=
  let significand := px.fraction + 2 ^ 23
  if px.exponent = 255 then if px.fraction = 0 then 2147483648 else 0
  else if px.exponent = 0 then 0
  else if 150 ≤ px.exponent then 60 * significand * 2 ^ (px.exponent - 150)
  else (120 * significand + 2 ^ (150 - px.exponent)) / 2 ^ (151 - px.exponent)

/-- `Au::from_px`. -/
def Au.fromPxF32 (px : F32) : Au := .saturate (if px.sign = 0 then pxMagnitude px else -pxMagnitude px)

/-- `Viewport::new` of the pixels as `f32`. -/
def viewportOf (width height : UInt32) : Size := ⟨.fromPxF32 (.ofU32 width), .fromPxF32 (.ofU32 height)⟩

/-! ## Exactness -/

namespace F32

variable {n : UInt32}

theorem significandOf_bounds {n : Nat} (h : n ≠ 0) : 2 ^ 23 ≤ significandOf n ∧ significandOf n ≤ 2 ^ 24 := by
  have hlow := Nat.log2_self_le h
  have hhigh := @Nat.lt_log2_self n
  unfold significandOf
  split
  · rename_i htop
    have hsplit : 2 ^ n.log2 * 2 ^ (23 - n.log2) = 2 ^ 23 := by rw [← Nat.pow_add, Nat.add_sub_cancel' htop]
    constructor
    · rw [← hsplit]
      exact Nat.mul_le_mul_right _ hlow
    · have h24 : 2 ^ (n.log2 + 1) * 2 ^ (23 - n.log2) = 2 ^ 24 := by
        rw [Nat.pow_succ, Nat.mul_right_comm, hsplit, ← Nat.pow_succ]
      rw [← h24]
      exact Nat.mul_le_mul_right _ hhigh.le
  · rename_i htop
    have hpos : 0 < 2 ^ (n.log2 - 23) := Nat.two_pow_pos _
    have hsplit : 2 ^ 23 * 2 ^ (n.log2 - 23) = 2 ^ n.log2 := by rw [← Nat.pow_add, Nat.add_sub_cancel' (by omega)]
    have hq : 2 ^ 23 ≤ n / 2 ^ (n.log2 - 23) := (Nat.le_div_iff_mul_le hpos).2 (hsplit ▸ hlow)
    have hq' : n / 2 ^ (n.log2 - 23) < 2 ^ 24 := by
      refine (Nat.div_lt_iff_lt_mul hpos).2 ?_
      calc n < 2 ^ n.log2 * 2 := hhigh
        _ = 2 ^ 24 * 2 ^ (n.log2 - 23) := by rw [← hsplit]; omega
    unfold roundHalfEven
    split <;> omega

theorem log2_lt (n : UInt32) : n.toNat.log2 < 32 := by
  by_cases h : n.toNat = 0
  · rw [h]
    decide
  · exact (Nat.log2_lt h).2 n.toNat_lt

theorem bits_ofU32 (h : n ≠ 0) : (ofU32 n).bits.toNat = (n.toNat.log2 + 126) * 2 ^ 23 + significandOf n.toNat := by
  have hn : n.toNat ≠ 0 := fun h0 => h (UInt32.toNat_inj.1 h0)
  have htop := log2_lt n
  obtain ⟨-, hhigh⟩ := significandOf_bounds hn
  rw [ofU32, if_neg h]
  refine UInt32.toNat_ofNat_of_lt' ?_
  simp only [UInt32.size]
  omega

theorem sign_ofU32 (n : UInt32) : (ofU32 n).sign = 0 := by
  by_cases h : n = 0
  · subst h
    decide
  · have hn : n.toNat ≠ 0 := fun h0 => h (UInt32.toNat_inj.1 h0)
    have htop := log2_lt n
    obtain ⟨-, hhigh⟩ := significandOf_bounds hn
    rw [sign, bits_ofU32 h]
    omega

theorem isFinite_ofU32 (n : UInt32) : (ofU32 n).isFinite = true := by
  by_cases h : n = 0
  · subst h
    decide
  · have hn : n.toNat ≠ 0 := fun h0 => h (UInt32.toNat_inj.1 h0)
    have htop := log2_lt n
    obtain ⟨-, hhigh⟩ := significandOf_bounds hn
    rw [isFinite, exponent, bits_ofU32 h]
    simp only [ne_eq, decide_eq_true_eq]
    omega

theorem isPositive_ofU32 : (ofU32 n).isPositive = true ↔ n ≠ 0 := by
  simp only [isPositive, sign_ofU32, true_and, decide_eq_true_eq]
  by_cases h : n = 0
  · subst h
    decide
  · simp only [ne_eq, h, not_false_eq_true, iff_true]
    intro h0
    have := bits_ofU32 h
    rw [h0, UInt32.toNat_zero] at this
    omega

end F32

theorem fromPxF32_ofU32_nonneg (n : UInt32) : 0 ≤ (Au.fromPxF32 (.ofU32 n)).units := by
  rw [Au.fromPxF32, F32.sign_ofU32, if_pos rfl, Au.units_saturate]
  omega

/-- Up to 24 bits, a number of pixels is that many pixels in app units. -/
theorem fromPxF32_ofU32 {n : UInt32} (h : n.toNat < 2 ^ 24) : Au.fromPxF32 (.ofU32 n) = .fromPx n.toNat := by
  by_cases h0 : n = 0
  · subst h0
    decide
  · have hn : n.toNat ≠ 0 := fun hz => h0 (UInt32.toNat_inj.1 hz)
    have htop : n.toNat.log2 ≤ 23 := Nat.le_of_lt_succ ((Nat.log2_lt hn).2 h)
    have hsig : F32.significandOf n.toNat = n.toNat * 2 ^ (23 - n.toNat.log2) := by rw [F32.significandOf, if_pos htop]
    have hlow : 2 ^ 23 ≤ F32.significandOf n.toNat := (F32.significandOf_bounds hn).1
    have hhigh : F32.significandOf n.toNat < 2 ^ 24 := by
      have hsplit : 2 ^ n.toNat.log2 * 2 ^ (23 - n.toNat.log2) = 2 ^ 23 := by rw [← Nat.pow_add, Nat.add_sub_cancel' htop]
      rw [hsig]
      calc n.toNat * 2 ^ (23 - n.toNat.log2) < 2 ^ (n.toNat.log2 + 1) * 2 ^ (23 - n.toNat.log2) :=
            Nat.mul_lt_mul_of_pos_right Nat.lt_log2_self (Nat.two_pow_pos _)
        _ = 2 ^ 24 := by rw [Nat.pow_succ, Nat.mul_right_comm, hsplit, ← Nat.pow_succ]
    have hbits := F32.bits_ofU32 h0
    have hexp : (F32.ofU32 n).exponent = n.toNat.log2 + 127 := by
      rw [F32.exponent, hbits]
      omega
    have hfrac : (F32.ofU32 n).fraction + 2 ^ 23 = F32.significandOf n.toNat := by
      rw [F32.fraction, hbits]
      omega
    have hmag : pxMagnitude (.ofU32 n) = 60 * n.toNat := by
      simp only [pxMagnitude, hexp, hfrac]
      rw [if_neg (by omega), if_neg (by omega), hsig]
      split
      · rename_i h23
        have htop' : n.toNat.log2 = 23 := by omega
        rw [htop']
        omega
      · rename_i h23
        have hk : 150 - (n.toNat.log2 + 127) = 23 - n.toNat.log2 := by omega
        have hk' : 151 - (n.toNat.log2 + 127) = 23 - n.toNat.log2 + 1 := by omega
        have hpos : 0 < 2 ^ (23 - n.toNat.log2) := Nat.two_pow_pos _
        rw [hk, hk', Nat.pow_succ]
        generalize 2 ^ (23 - n.toNat.log2) = d at hpos ⊢
        refine Nat.div_eq_of_lt_le ?_ ?_
        · calc 60 * n.toNat * (d * 2) = 120 * (n.toNat * d) := by rw [Nat.mul_assoc 60, ← Nat.mul_assoc n.toNat]; omega
            _ ≤ 120 * (n.toNat * d) + d := Nat.le_add_right _ _
        · calc 120 * (n.toNat * d) + d < 120 * (n.toNat * d) + d * 2 := by omega
            _ = (60 * n.toNat + 1) * (d * 2) := by
              rw [Nat.add_mul, Nat.mul_assoc 60, ← Nat.mul_assoc n.toNat]
              omega
    rw [Au.fromPxF32, F32.sign_ofU32, if_pos rfl, hmag, Au.fromPx]
    congr 1

end ChromeLight
