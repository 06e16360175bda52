import TiffLayout.Plan.Basic
import TiffLayout.Buffer
/-! Writing out a placed plan: pointer fields receive the offsets of their targets, and each
item is serialized at its offset. An entry table holds its count, per field the tag, type,
count and either the inline value padded to four bytes or the offset of the value's item,
then the offset of the chained directory or zero. -/
namespace TiffLayout

namespace Plan

/-- The four bytes of an offset, which must be a 32-bit word. -/
def offsetBytes (o : ByteOrder) (n : Nat) : Except LayoutError (List UInt8) := do
  let w ← checked (Width.bits32.narrow n)
  pure (o.encode 4 w)

/-- Writes the offsets of their targets into the pointer fields, in order; the first
failure stops, and the fields written before it keep their new values. -/
def patchFrom (p : Plan) : List Pointer → Draft → Draft × Except LayoutError Unit
  | [], d => (d, .ok ())
  | q :: qs, d =>
    match p.itemOffset q.target >>= offsetBytes p.byteOrder with
    | .error e => (d, .error e)
    | .ok bytes =>
      match (d.dirs[q.dir]?).bind (·.find? q.tag) with
      | none => (d, .error (.unresolvedReference q.tag))
      | some _ =>
        let dirs := d.dirs.modify q.dir (·.updateField q.tag (·.setBytes 1 ⟨bytes.toArray⟩))
        patchFrom p qs { d with dirs }

/-- Writes every pointer field. -/
def patch (p : Plan) (d : Draft) : Draft × Except LayoutError Unit := p.patchFrom p.pointers d

/-- The slot of field `j` of directory `i`: the inline value, or the offset of the
value's item. -/
def slotPiece (p : Plan) (i j : Nat) (f : Field) : Except LayoutError (List UInt8) :=
  if f.outOfLine then
    match p.valueItem? i j with
    | some id => p.itemOffset id >>= offsetBytes p.byteOrder
    | none => .error (.unresolvedReference f.tag)
  else .ok f.slot

/-- The next-directory offset of directory `i`: the offset of the directory chained after it,
or zero. -/
def nextPiece (p : Plan) (i : Nat) : Except LayoutError (List UInt8) :=
  match p.next? i with
  | some n => p.dirOffset n >>= offsetBytes p.byteOrder
  | none => .ok (p.byteOrder.encode 4 0)

/-- The output of the entry table of directory `i`. -/
def tablePieces (p : Plan) (i : Nat) (x : Directory) : List (Except LayoutError (List UInt8)) :=
  let o := p.byteOrder
  let count := (checked (Width.bits16.narrow x.fields.length)).map (o.encode 2)
  let entries := x.fields.zipIdx.flatMap fun (f, j) =>
    [.ok (o.encode 2 f.tag.code.toNat ++ o.encode 2 f.type.code.toNat ++ o.encode 4 f.count),
     p.slotPiece i j f]
  count :: entries ++ [p.nextPiece i]

/-- The output of an item; a part that names no directory, field or thumbnail of the draft
is an item that cannot be written. -/
def pieces (p : Plan) (it : Item) (d : Draft) : List (Except LayoutError (List UInt8)) :=
  match it.part with
  | .table i =>
    match d.dirs[i]? with
    | some x => p.tablePieces i x
    | none => [.error .itemNotPlaced]
  | .value i j =>
    match (d.dirs[i]?).bind (·.fields[j]?) with
    | some f => [.ok f.bytes.data.toList]
    | none => [.error .itemNotPlaced]
  | .thumbnail i =>
    match (d.dirs[i]?).bind (·.thumbnail) with
    | some t => [.ok t.data.toList]
    | none => [.error .itemNotPlaced]

/-- Serializes a placed item at its offset. -/
def writeItem (p : Plan) (id : Nat) (d : Draft) (buf : ByteArray) :
    ByteArray × Except LayoutError Unit :=
  match p.items[id]? with
  | none => (buf, .error .itemNotPlaced)
  | some it =>
    match it.offset with
    | none => (buf, .error .itemNotPlaced)
    | some o => Buffer.emitAt buf o (p.pieces it d)

/-- Serializes items in the given order; the first failure stops. -/
def writeItems (p : Plan) (d : Draft) : List Nat → ByteArray → Except LayoutError ByteArray
  | [], buf => .ok buf
  | id :: ids, buf =>
    match p.writeItem id d buf with
    | (buf', .ok ()) => p.writeItems d ids buf'
    | (_, .error e) => .error e

end Plan

/-- Writes the header: the byte-order marker, the magic number and the root offset. -/
def writeHeader (buf : ByteArray) (o : ByteOrder) (root : Nat) : Except LayoutError ByteArray :=
  match Buffer.emitAt buf 0 [.ok (o.marker ++ o.encode 2 magic), Plan.offsetBytes o root] with
  | (buf', .ok ()) => .ok buf'
  | (_, .error e) => .error e

end TiffLayout
