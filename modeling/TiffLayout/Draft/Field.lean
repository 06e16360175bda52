import TiffLayout.ByteOrder
import TiffLayout.Tag
import TiffLayout.FieldType
import TiffLayout.Width
/-! Fields of a draft: a tag, a type, a count and the encoded payload. A payload of up to
four bytes is stored inside the entry table; a longer one becomes an item of its own. A
field may keep the offset that its unchanged value had in an old segment. -/
namespace TiffLayout

/-- A directory entry to be written, with its encoded payload. -/
structure Field where
  tag : Tag
  type : FieldType
  count : Nat
  bytes : ByteArray
  /-- The offset in an old segment that the unchanged value keeps. -/
  keptOffset : Option Nat := none

namespace Field

/-- A field with the given parts and no kept offset. -/
def raw (tag : Tag) (type : FieldType) (count : Nat) (bytes : ByteArray) : Field :=
  ⟨tag, type, count, bytes, none⟩

/-- The count of a byte payload: its length, at most the largest 32-bit word. -/
def byteCount (bytes : ByteArray) : Nat := min bytes.size Width.bits32.max

/-- A NUL-terminated text. -/
def ascii (tag : Tag) (text : String) : Field :=
  let bytes := text.toUTF8.push 0
  raw tag .ascii (byteCount bytes) bytes

/-- A single SHORT in the given byte order. -/
def short (tag : Tag) (value : Nat) (o : ByteOrder) : Field :=
  raw tag .short 1 ⟨(o.encode 2 value).toArray⟩

/-- A single LONG in the given byte order. -/
def long (tag : Tag) (value : Nat) (o : ByteOrder) : Field :=
  raw tag .long 1 ⟨(o.encode 4 value).toArray⟩

/-- Opaque bytes. -/
def undefined (tag : Tag) (bytes : ByteArray) : Field :=
  raw tag .undefined (byteCount bytes) bytes

/-- The value does not fit into the entry table. -/
def outOfLine (f : Field) : Bool := 4 < f.bytes.size

/-- Replaces the payload and its count; a changed payload cannot keep its old offset. -/
def setBytes (f : Field) (count : Nat) (bytes : ByteArray) : Field :=
  { f with count, bytes, keptOffset := if bytes.data = f.bytes.data then f.keptOffset else none }

/-- The four bytes of the entry-table slot of an inline value: the payload padded with
zeros. -/
def slot (f : Field) : List UInt8 :=
  let b := f.bytes.data.toList.take 4
  b ++ List.replicate (4 - b.length) 0

@[simp] theorem length_slot (f : Field) : f.slot.length = 4 := by
  simp only [slot, List.length_append, List.length_replicate, List.length_take]
  omega

end Field

end TiffLayout
