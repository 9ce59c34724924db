/-!
# ASCII case

Text up to the case of its ASCII letters.
-/

namespace Ascii

/-- A character in lower case, if it is an ASCII letter. -/
def toLowercase (c : Char) : Char := if 'A' ≤ c ∧ c ≤ 'Z' then .ofNat (c.toNat + 32) else c

def eqIgnoreCase (a b : List Char) : Bool := a.map toLowercase = b.map toLowercase

theorem eqIgnoreCase_iff {a b : List Char} : eqIgnoreCase a b = true ↔ a.map toLowercase = b.map toLowercase := decide_eq_true_iff

@[simp] theorem eqIgnoreCase_refl (a : List Char) : eqIgnoreCase a a = true := eqIgnoreCase_iff.2 rfl

end Ascii
