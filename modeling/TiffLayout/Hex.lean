/-! Hexadecimal text of numbers and bytes: a number written with at least a given count of
digits, upper or lower case, and a byte string in lower-case pairs. -/
namespace TiffLayout

namespace Hex

/-- The digits of `n`, most significant first, padded with zeros to at least `width`. -/
def digits (upper : Bool) (width n : Nat) : List Char :=
  let ds := (Nat.toDigits 16 n).map fun c => if upper then c.toUpper else c
  List.replicate (width - ds.length) '0' ++ ds

/-- `n` in upper-case hexadecimal, padded with zeros to `width` digits. -/
def upper (width n : Nat) : String := String.ofList (digits true width n)

/-- A byte as two lower-case digits. -/
def byteLower (b : UInt8) : String := String.ofList (digits false 2 b.toNat)

/-- A byte string as lower-case digit pairs with nothing between them. -/
def ofBytes (bytes : List UInt8) : String :=
  String.join (bytes.map byteLower)

theorem length_digits_ge (upper : Bool) (width n : Nat) : width ≤ (digits upper width n).length := by
  simp only [digits, List.length_append, List.length_replicate, List.length_map]
  omega

end Hex

end TiffLayout
