import Mathlib.Order.Lattice
import Mathlib.Order.MinMax
import Mathlib.Order.Defs.LinearOrder

/-!
# App units, geometry and layout styles

`cl-layout`'s vocabulary: the app unit `Au` (an `i32` of sixtieths of a CSS pixel, with saturating arithmetic), points, sizes
and rects over it, and the computed style values layout reads.

Floating point only occurs where the code scales an `Au` by an `f32`. What that scaling returns is left open: an `F32` is its
bits, and `FloatOps` holds the two operations the code uses.
-/

namespace ChromeLight

/-- One-sixtieth of a CSS pixel, as an `i32`. -/
structure Au where
  units : Int
  isI32 : -2147483648 ≤ units ∧ units ≤ 2147483647
deriving DecidableEq, Repr

namespace Au

/-- Lengths of the same units are equal. -/
theorem ext_units {a b : Au} (h : a.units = b.units) : a = b := by
  cases a; cases b
  simpa using h

/-- Lengths are equal exactly if their units are. -/
theorem ext_iff_units {a b : Au} : a = b ↔ a.units = b.units := ⟨fun h => h ▸ rfl, ext_units⟩

instance : LinearOrder Au := LinearOrder.lift' Au.units (fun _ _ h => ext_units h)

/-- The order is that of the units. -/
theorem le_iff {a b : Au} : a ≤ b ↔ a.units ≤ b.units := Iff.rfl

/-- The strict order is that of the units. -/
theorem lt_iff {a b : Au} : a < b ↔ a.units < b.units := Iff.rfl

/-- The `Au` nearest to a number of units. -/
def saturate (i : Int) : Au :=
  ⟨max (-2147483648) (min i 2147483647), by omega⟩

/-- No length. -/
def zero : Au := ⟨0, by decide⟩

/-- `Au::MAX`, the available size that has no upper bound. -/
def maxValue : Au := ⟨2147483647, by decide⟩

/-- A whole number of CSS pixels. -/
def fromPx (px : Int) : Au := saturate (60 * px)

/-- The sum, saturated. -/
def saturatingAdd (a b : Au) : Au := saturate (a.units + b.units)

/-- The difference, saturated. -/
def saturatingSub (a b : Au) : Au := saturate (a.units - b.units)

/-- The sum if it is an `i32`. -/
def checkedAdd (a b : Au) : Option Au :=
  if h : -2147483648 ≤ a.units + b.units ∧ a.units + b.units ≤ 2147483647 then some ⟨a.units + b.units, h⟩ else none

/-- `Ord::clamp`: the value of the range `[lo, hi]` nearest to `a`. It panics (`none`) on bounds the wrong way round. -/
def clamp (a lo hi : Au) : Option Au :=
  if lo ≤ hi then some (if a < lo then lo else if hi < a then hi else a) else none

/-- The number is an `i32`. -/
def IsI32 (i : Int) : Prop := -2147483648 ≤ i ∧ i ≤ 2147483647

instance (i : Int) : Decidable (IsI32 i) := inferInstanceAs (Decidable (_ ∧ _))

/-- The sum is an `i32`: adding does not saturate. -/
def AddFits (a b : Au) : Prop := -2147483648 ≤ a.units + b.units ∧ a.units + b.units ≤ 2147483647

instance (a b : Au) : Decidable (AddFits a b) := inferInstanceAs (Decidable (_ ∧ _))

/-- Saturating is clamping to the range of `i32`. -/
theorem units_saturate (i : Int) : (saturate i).units = max (-2147483648) (min i 2147483647) := rfl

/-- Saturating an `i32` changes nothing. -/
theorem IsI32.units_saturate {i : Int} (h : IsI32 i) : (saturate i).units = i := by
  obtain ⟨h1, h2⟩ := h
  rw [Au.units_saturate]
  omega

@[simp] theorem units_zero : zero.units = 0 := rfl

@[simp] theorem units_maxValue : maxValue.units = 2147483647 := rfl

/-- The units of a sum. -/
theorem units_saturatingAdd (a b : Au) :
    (a.saturatingAdd b).units = max (-2147483648) (min (a.units + b.units) 2147483647) := rfl

/-- The units of a difference. -/
theorem units_saturatingSub (a b : Au) :
    (a.saturatingSub b).units = max (-2147483648) (min (a.units - b.units) 2147483647) := rfl

/-- The units of the larger length. -/
theorem units_max (a b : Au) : (max a b).units = max a.units b.units := by
  rcases le_total a b with h | h
  · rw [max_eq_right h, max_eq_right (le_iff.1 h)]
  · rw [max_eq_left h, max_eq_left (le_iff.1 h)]

/-- The units of the smaller length. -/
theorem units_min (a b : Au) : (min a b).units = min a.units b.units := by
  rcases le_total a b with h | h
  · rw [min_eq_left h, min_eq_left (le_iff.1 h)]
  · rw [min_eq_right h, min_eq_right (le_iff.1 h)]

/-- A sum that fits is exact. -/
theorem AddFits.units_saturatingAdd {a b : Au} (h : AddFits a b) : (a.saturatingAdd b).units = a.units + b.units := by
  obtain ⟨h1, h2⟩ := h
  rw [Au.units_saturatingAdd]
  omega

/-- A checked sum exists exactly if it fits. -/
theorem isSome_checkedAdd {a b : Au} : (a.checkedAdd b).isSome ↔ AddFits a b := by
  unfold checkedAdd AddFits
  split <;> simp_all

/-- A length is its own units, saturated. -/
theorem saturate_units (a : Au) : saturate a.units = a := by
  have := a.isI32
  apply ext_units
  rw [units_saturate]
  omega

/-- Adding nothing changes nothing. -/
@[simp] theorem saturatingAdd_zero (a : Au) : a.saturatingAdd zero = a := by
  rw [saturatingAdd, units_zero, Int.add_zero, saturate_units]

end Au

/-- An `f32`, as its bits. -/
structure F32 where
  bits : UInt32
deriving DecidableEq, Repr

/-- The float that percentages are divided by. -/
def F32.hundred : F32 := ⟨0x42c80000⟩

/-- The floating-point operations of the code: scaling an `Au` by an `f32` factor, and dividing two `f32`s. -/
structure FloatOps where
  mulByF32 : Au → F32 → Au
  div : F32 → F32 → F32

/-- `NORMAL_LINE_HEIGHT_RATIO`, 1.2. -/
def F32.normalLineHeightRatio : F32 := ⟨0x3f99999a⟩

/-- Operations for runs in which the line-height ratio is the only factor, on whole pixels. -/
def FloatOps.sample : FloatOps where
  mulByF32 a scale := if scale = .normalLineHeightRatio then .saturate (a.units * 6 / 5) else a
  div a _ := a

/-! ## Geometry -/

/-- A position on the canvas. -/
structure Point where
  x : Au
  y : Au
deriving DecidableEq, Repr

/-- A width and a height. -/
structure Size where
  w : Au
  h : Au
deriving DecidableEq, Repr

/-- A rect by its top left corner and its size. -/
structure Rect where
  origin : Point
  size : Size
deriving DecidableEq, Repr

/-- The top left corner of the canvas. -/
def Point.zero : Point := ⟨.zero, .zero⟩

namespace Rect

/-- The right edge, saturated. -/
def right (r : Rect) : Au := r.origin.x.saturatingAdd r.size.w

/-- The bottom edge, saturated. -/
def bottom (r : Rect) : Au := r.origin.y.saturatingAdd r.size.h

/-- Whether the rect has no area: either dimension is zero or negative. -/
def isEmpty (r : Rect) : Bool := r.size.w ≤ .zero || r.size.h ≤ .zero

/-- The empty rect at the origin. -/
def zero : Rect := ⟨.zero, .zero, .zero⟩

end Rect

/-- One value for each side of a box. -/
structure Sides (α : Type) where
  top : α
  right : α
  bottom : α
  left : α
deriving DecidableEq, Repr

/-- The same value on every side. -/
def Sides.uniform {α : Type} (value : α) : Sides α :=
  { top := value, right := value, bottom := value, left := value }

/-! ## Computed values -/

/-- A length or percentage, or `auto`. -/
inductive Length where
  | auto
  | px (length : Au)
  /-- Percentage points, still relative to a containing block. -/
  | percent (p : F32)
deriving DecidableEq, Repr

/-- The displays layout knows. -/
inductive Display where
  | block
  | inline
  | none
deriving DecidableEq, Repr

/-- The positioning schemes layout knows. -/
inductive Position where
  | static
  | relative
deriving DecidableEq, Repr

/-- What becomes of white space and of line breaks in it. -/
inductive WhiteSpace where
  | normal
  | pre
deriving DecidableEq, Repr

/-- Where the text of a line stands. -/
inductive TextAlign where
  | left
  | right
  | center
deriving DecidableEq, Repr

/-- Which box `width` and `height` are of. -/
inductive BoxSizing where
  | contentBox
  | borderBox
deriving DecidableEq, Repr

/-- Whether content outside of a box is seen. -/
inductive Overflow where
  | visible
  /-- Content outside the box's padding edge is clipped away. -/
  | hidden
deriving DecidableEq, Repr

/-- A color, its alpha not multiplied in. -/
structure Rgba8 where
  r : UInt8
  g : UInt8
  b : UInt8
  a : UInt8
deriving DecidableEq, Repr

/-- Opaque black. -/
def Rgba8.black : Rgba8 := ⟨0, 0, 0, 255⟩

/-- A color nothing is seen of. -/
def Rgba8.transparent : Rgba8 := ⟨0, 0, 0, 0⟩

/-- The computed values of one element that layout and paint read. -/
structure LayoutStyle where
  display : Display
  position : Position
  width : Length
  height : Length
  minWidth : Length
  maxWidth : Option Length
  minHeight : Length
  maxHeight : Option Length
  margin : Sides Length
  padding : Sides Length
  borderWidth : Sides Au
  borderColor : Sides Rgba8
  borderSolid : Sides Bool
  boxSizing : BoxSizing
  overflow : Overflow
  offset : Sides Length
  color : Rgba8
  background : Rgba8
  fontFamily : List String
  fontSize : Au
  fontWeight : UInt16
  fontItalic : Bool
  lineHeight : Au
  textAlign : TextAlign
  whiteSpace : WhiteSpace
deriving DecidableEq, Repr

/-- The line height that `normal` stands for. -/
def normalLineHeight (Γ : FloatOps) (fontSize : Au) : Au := Γ.mulByF32 fontSize .normalLineHeightRatio

namespace LayoutStyle

/-- The CSS initial values. -/
def initial (Γ : FloatOps) : LayoutStyle where
  display := .inline
  position := .static
  width := .auto
  height := .auto
  minWidth := .auto
  maxWidth := none
  minHeight := .auto
  maxHeight := none
  margin := .uniform (.px .zero)
  padding := .uniform (.px .zero)
  borderWidth := .uniform .zero
  borderColor := .uniform .black
  borderSolid := .uniform false
  boxSizing := .contentBox
  overflow := .visible
  offset := .uniform .auto
  color := .black
  background := .transparent
  fontFamily := ["sans-serif"]
  fontSize := .fromPx 16
  fontWeight := 400
  fontItalic := false
  lineHeight := normalLineHeight Γ (.fromPx 16)
  textAlign := .left
  whiteSpace := .normal

/-- The style of an anonymous block: the inherited properties of its parent, initial values for the others. -/
def anonymousBlock (Γ : FloatOps) (parent : LayoutStyle) : LayoutStyle :=
  { initial Γ with
    display := .block
    color := parent.color
    fontFamily := parent.fontFamily
    fontSize := parent.fontSize
    fontWeight := parent.fontWeight
    fontItalic := parent.fontItalic
    lineHeight := parent.lineHeight
    textAlign := parent.textAlign
    whiteSpace := parent.whiteSpace }

/-- The style a text run takes from the element around it: its inherited properties, initial values for the others. -/
def inheritedTextStyle (Γ : FloatOps) (style : LayoutStyle) : LayoutStyle :=
  { anonymousBlock Γ style with display := .inline }

end LayoutStyle

end ChromeLight
