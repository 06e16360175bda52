import TiffLayout.Hex
import TiffLayout.Kind
/-! Tags, the 16-bit ids of directory entries, and the tags that give the segment its
structure: the three directory pointers and the two thumbnail entries. Their values are
offsets inside the segment, so a segment written anew computes them again. -/
namespace TiffLayout

/-- The numeric id of a directory entry. -/
structure Tag where
  code : UInt16
  deriving DecidableEq, Repr

namespace Tag

/-- Offset of the embedded thumbnail (JPEGInterchangeFormat). -/
def thumbnailOffset : Tag := ⟨0x0201⟩
/-- Length of the embedded thumbnail (JPEGInterchangeFormatLength). -/
def thumbnailLength : Tag := ⟨0x0202⟩
/-- Offset of the Exif directory. -/
def exifPointer : Tag := ⟨0x8769⟩
/-- Offset of the GPS directory. -/
def gpsPointer : Tag := ⟨0x8825⟩
/-- Offset of the Interoperability directory. -/
def interopPointer : Tag := ⟨0xA005⟩
/-- The maker's own notes, which hold offsets of their own. -/
def makerNote : Tag := ⟨0x927C⟩

/-- The directory that a pointer tag links to. -/
def linkedKind? (t : Tag) : Option DirectoryKind :=
  if t = exifPointer then some .exif
  else if t = gpsPointer then some .gps
  else if t = interopPointer then some .interop
  else none

/-- Tags whose value is an offset inside the segment; they are never copied verbatim. -/
def isStructural (t : Tag) : Bool :=
  t.linkedKind?.isSome || t = thumbnailOffset || t = thumbnailLength

/-- `0x` and four upper-case hexadecimal digits. -/
def display (t : Tag) : String := "0x" ++ Hex.upper 4 t.code.toNat

end Tag

/-- The tag in the parent directory that holds this directory's offset; the thumbnail
directory is chained through the root's next-directory offset instead. -/
def DirectoryKind.pointerTag? : DirectoryKind → Option Tag
  | .exif => some Tag.exifPointer
  | .gps => some Tag.gpsPointer
  | .interop => some Tag.interopPointer
  | .root | .thumbnail => none

theorem DirectoryKind.linkedKind?_pointerTag? {k : DirectoryKind} {t : Tag}
    (h : k.pointerTag? = some t) : t.linkedKind? = some k := by
  cases k <;> simp [pointerTag?] at h <;> subst h <;> decide

end TiffLayout
