import TiffLayout.Hex
/-! Field types, the 16-bit type codes of directory entries. The thirteen types of the
standard have names and value sizes; any other code is kept as it is and counts as opaque
single bytes, so it survives rebuilding unchanged. -/
namespace TiffLayout

/-- The type of a directory entry's values, by its code. -/
structure FieldType where
  code : UInt16
  deriving DecidableEq, Repr

namespace FieldType

/-- Unsigned bytes. -/
def byte : FieldType := ⟨1⟩
/-- NUL-terminated 7-bit text. -/
def ascii : FieldType := ⟨2⟩
/-- Unsigned 16-bit words. -/
def short : FieldType := ⟨3⟩
/-- Unsigned 32-bit words. -/
def long : FieldType := ⟨4⟩
/-- Pairs of unsigned 32-bit words: numerator and denominator. -/
def rational : FieldType := ⟨5⟩
/-- Signed bytes. -/
def sbyte : FieldType := ⟨6⟩
/-- Bytes of any meaning. -/
def undefined : FieldType := ⟨7⟩
/-- Signed 16-bit words. -/
def sshort : FieldType := ⟨8⟩
/-- Signed 32-bit words. -/
def slong : FieldType := ⟨9⟩
/-- Pairs of signed 32-bit words. -/
def srational : FieldType := ⟨10⟩
/-- Single-precision floats. -/
def float : FieldType := ⟨11⟩
/-- Double-precision floats. -/
def double : FieldType := ⟨12⟩
/-- UTF-8 text. -/
def utf8 : FieldType := ⟨129⟩

/-- The names of the known codes. -/
def known : List (UInt16 × String) :=
  [(1, "Byte"), (2, "Ascii"), (3, "Short"), (4, "Long"), (5, "Rational"), (6, "SByte"),
   (7, "Undefined"), (8, "SShort"), (9, "SLong"), (10, "SRational"), (11, "Float"),
   (12, "Double"), (129, "Utf8")]

/-- Size of one value in bytes; unknown codes are opaque bytes. -/
def size (t : FieldType) : Nat :=
  match t.code.toNat with
  | 3 | 8 => 2
  | 4 | 9 | 11 => 4
  | 5 | 10 | 12 => 8
  | _ => 1

/-- The name of a type; an unknown code is shown with its number. -/
def name (t : FieldType) : String :=
  match known.lookup t.code with
  | some n => n
  | none => s!"Unknown({t.code.toNat})"

theorem size_pos (t : FieldType) : 0 < t.size := by
  unfold size; split <;> decide

end FieldType

end TiffLayout
