import TiffLayout.Width
import TiffLayout.ByteOrder
import TiffLayout.Tag
import TiffLayout.FieldType
/-! The structure of a segment as it was read: its byte order and its image file directories,
each with its entries, next-directory offset, raw table bytes and thumbnail. -/
namespace TiffLayout

/-- Bytes of the header: marker, magic number and root offset. -/
def headerSize : Nat := 8

/-- The magic number that follows the byte-order marker. -/
def magic : Nat := 42

/-- Bytes of one entry of a directory table. -/
def entrySize : Nat := 12

/-- Why a segment's structure cannot be read. -/
inductive ReadError where
  /-- A read ran past the end of the data. -/
  | truncated
  | unknownByteOrder (b0 b1 : UInt8)
  | badMagic (found : Nat)
  | badDirectoryOffset (offset : Nat)
  | valueOutOfBounds (tag : Tag) (offset length : Nat)
  | arith (e : ArithError)
  deriving DecidableEq, Repr

namespace ReadError

/-- The text of a read failure. -/
def message : ReadError → String
  | truncated => "IO: failed to fill whole buffer"
  | unknownByteOrder b0 b1 =>
    "Unknown byte order marker: [" ++ String.ofList (Hex.digits false 1 b0.toNat) ++ ", " ++
      String.ofList (Hex.digits false 1 b1.toNat) ++ "]"
  | badMagic m => s!"Magic bytes wrong: {m}"
  | badDirectoryOffset o => s!"Directory offset invalid: {o}"
  | valueOutOfBounds t o n =>
    "Value of " ++ t.display ++ s!" at offset {o} with length {n} exceeds the segment"
  | arith e => "Math: " ++ e.message

end ReadError

/-- Where an entry keeps its value: inside its four slot bytes, or at an offset. -/
inductive Slot where
  | inline (bytes : List UInt8)
  | outOfLine (offset : Nat)
  deriving DecidableEq, Repr

/-- One entry of a directory table as read. -/
structure Entry where
  tag : Tag
  type : FieldType
  count : Nat
  /-- Byte position of the entry in the segment. -/
  position : Nat
  slot : Slot
  /-- The raw payload, without the padding of an inline value. -/
  value : ByteArray

namespace Entry

/-- The value of a single inline SHORT or LONG: the form that offsets and lengths take. -/
def word? (e : Entry) (o : ByteOrder) : Option Nat :=
  match e.slot with
  | .inline bytes =>
    if e.count = 1 ∧ e.type = .short then some (o.decode (bytes.take 2))
    else if e.count = 1 ∧ e.type = .long then some (o.decode bytes)
    else none
  | .outOfLine _ => none

/-- The offset of a value stored out of line. -/
def offset? (e : Entry) : Option Nat :=
  match e.slot with
  | .inline _ => none
  | .outOfLine p => some p

end Entry

/-- An embedded thumbnail: where it starts and its bytes. -/
structure Thumbnail where
  offset : Nat
  bytes : ByteArray

/-- An image file directory as read. -/
structure Ifd where
  kind : DirectoryKind
  offset : Nat
  entries : List Entry
  /-- The next-directory offset as read. -/
  next : Nat
  thumbnail : Option Thumbnail
  /-- The raw bytes of the entry table. -/
  table : ByteArray

namespace Ifd

/-- Bytes of a table with `n` entries: the count, the entries and the next offset. -/
def tableLength (n : Nat) : Nat := 2 + entrySize * n + 4

/-- The first entry with a tag. -/
def entry? (d : Ifd) (t : Tag) : Option Entry := d.entries.find? (·.tag = t)

/-- The directories this one links to, with their offsets, in entry order: entries whose
tag points to a kind whose parent is this directory's kind, holding a single offset. -/
def links (d : Ifd) (o : ByteOrder) : List (DirectoryKind × Nat) :=
  d.entries.filterMap fun e =>
    match e.tag.linkedKind? with
    | some k => if k.parent? = some d.kind then (e.word? o).map (k, ·) else none
    | none => none

end Ifd

/-- The structure of a segment: its byte order and its directories in reading order. -/
structure Segment where
  byteOrder : ByteOrder
  ifds : List Ifd

end TiffLayout
