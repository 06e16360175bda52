import TiffLayout.Segment.Basic
/-! Reading the structure of a segment: the root directory, then depth first every directory that a
pointer entry links to, then the thumbnail directory; only a broken root fails the read. -/
namespace TiffLayout

namespace Segment

/-- The `n` bytes at `p`, when they lie within the data. -/
def slice? (data : ByteArray) (p n : Nat) : Option ByteArray :=
  if p + n ≤ data.size then some (data.extract p (p + n)) else none

/-- The `n` bytes at `p`; reading past the end fails. -/
def bytesAt (data : ByteArray) (p n : Nat) : Except ReadError (List UInt8) :=
  match slice? data p n with
  | some b => .ok b.data.toList
  | none => .error .truncated

/-- The `n`-byte word at `p` in the given order. -/
def wordAt (data : ByteArray) (o : ByteOrder) (p n : Nat) : Except ReadError Nat := do
  pure (o.decode (← bytesAt data p n))

/-- The header: the byte order it announces and the root offset. -/
def readHeader (data : ByteArray) : Except ReadError (ByteOrder × Nat) := do
  let m ← bytesAt data 0 2
  let b0 := m.getD 0 0
  let b1 := m.getD 1 0
  let some o := ByteOrder.ofMarker? b0 b1 | throw (.unknownByteOrder b0 b1)
  let found ← wordAt data o 2 2
  if found ≠ magic then throw (.badMagic found)
  let root ← wordAt data o 4 4
  pure (o, root)

/-- The entry whose twelve bytes start at `p`. A value of more than four bytes is read at
the offset in its slot, which must lie after the header with the whole value in the data. -/
def readEntry (data : ByteArray) (o : ByteOrder) (p : Nat) : Except ReadError Entry := do
  let position ← (Width.bits32.narrow p).mapError .arith
  let raw ← bytesAt data p entrySize
  let tag : Tag := ⟨(o.decode (raw.take 2)).toUInt16⟩
  let type : FieldType := ⟨(o.decode ((raw.drop 2).take 2)).toUInt16⟩
  let count := o.decode ((raw.drop 4).take 4)
  let slotBytes := raw.drop 8
  let length ← (Width.bits32.mul count type.size).mapError .arith
  if length ≤ 4 then
    pure ⟨tag, type, count, position, .inline slotBytes, ⟨(slotBytes.take length).toArray⟩⟩
  else
    let offset := o.decode slotBytes
    match slice? data offset length with
    | some value =>
      if headerSize ≤ offset then pure ⟨tag, type, count, position, .outOfLine offset, value⟩
      else throw (.valueOutOfBounds tag offset length)
    | none => throw (.valueOutOfBounds tag offset length)

/-- Bytes of a table with `n` entries, as a 32-bit length. -/
def tableLength? (n : Nat) : Except ArithError Nat := do
  let entries ← Width.bits32.mul n entrySize
  let withCount ← Width.bits32.add entries 2
  Width.bits32.add withCount 4

/-- The thumbnail that the first offset and length entries describe: a single offset and a
non-zero length whose bytes lie after the header and within the data. -/
def thumbnailOf (data : ByteArray) (o : ByteOrder) (entries : List Entry) : Option Thumbnail := do
  let offset ← (entries.find? (·.tag = Tag.thumbnailOffset)).bind (·.word? o)
  let length ← (entries.find? (·.tag = Tag.thumbnailLength)).bind (·.word? o)
  if length = 0 then none
  else if headerSize ≤ offset then (slice? data offset length).map (⟨offset, ·⟩)
  else none

/-- The directory table at `offset`, whose kind the caller knows. -/
def readIfd (data : ByteArray) (o : ByteOrder) (kind : DirectoryKind) (offset : Nat) :
    Except ReadError Ifd := do
  let n ← wordAt data o offset 2
  let entries ← (List.range n).mapM fun i => readEntry data o (offset + 2 + entrySize * i)
  let next ← wordAt data o (offset + 2 + entrySize * n) 4
  let length ← (tableLength? n).mapError .arith
  let some table := slice? data offset length | throw (.badDirectoryOffset offset)
  pure ⟨kind, offset, entries, next, thumbnailOf data o entries, table⟩

/-- Reading in progress: the directory offsets claimed so far and the directories read. -/
structure Walk where
  visited : List Nat
  found : List Ifd

/-- Reads the directory at `offset` after claiming the offset: it must lie after the header
and inside the data, and must not have been claimed before. A claimed offset stays claimed
whether or not its table can be read. -/
def Walk.readAt (data : ByteArray) (o : ByteOrder) (w : Walk) (kind : DirectoryKind)
    (offset : Nat) : List Nat × Except ReadError Ifd :=
  if offset < headerSize ∨ data.size ≤ offset then (w.visited, .error (.badDirectoryOffset offset))
  else if offset ∈ w.visited then (w.visited, .error (.badDirectoryOffset offset))
  else (offset :: w.visited, readIfd data o kind offset)

/-- Reads the directory of `kind` at `offset` and then, depth first, the directories it
links to; a kind already read, and a directory that cannot be read, are passed over.
Every link goes from a kind to a child kind, so `depth` levels reach all kinds once
`depth` exceeds the longest chain of parents. -/
def Walk.follow (data : ByteArray) (o : ByteOrder) :
    Nat → Walk → DirectoryKind × Nat → Walk
  | 0, w, _ => w
  | depth + 1, w, (kind, offset) =>
    if w.found.any (·.kind = kind) then w
    else
      match w.readAt data o kind offset with
      | (visited, .ok d) =>
        (d.links o).foldl (Walk.follow data o depth) ⟨visited, w.found ++ [d]⟩
      | (visited, .error _) => ⟨visited, w.found⟩

/-- Levels of links that a walk follows: more than the longest chain of parents. -/
def linkDepth : Nat := DirectoryKind.all.length

/-- Reads the structure of a segment: the root directory and everything it leads to. -/
def read (data : ByteArray) : Except ReadError Segment := do
  let (o, rootOffset) ← readHeader data
  let start : Walk := ⟨[], []⟩
  let (visited, result) := start.readAt data o .root rootOffset
  let root ← result
  let w := (root.links o).foldl (Walk.follow data o linkDepth) ⟨visited, [root]⟩
  let w := if root.next = 0 then w else w.follow data o linkDepth (.thumbnail, root.next)
  pure ⟨o, w.found⟩

end Segment

end TiffLayout
