import TiffLayout.Plan.Basic
/-! Building the plan of a draft: the structural fields of every directory made anew and sorted
by tag, then per directory its table, its out-of-line values and its thumbnail as items. -/
namespace TiffLayout

/-- The tags whose values are offsets or thumbnail lengths, dropped before a layout. -/
def structuralTags : List Tag :=
  [Tag.exifPointer, Tag.gpsPointer, Tag.interopPointer, Tag.thumbnailOffset, Tag.thumbnailLength]

namespace Directory

/-- Adds the placeholder of a child kind that hangs below this directory by a pointer field. -/
def addPointerField (o : ByteOrder) (x : Directory) (child : DirectoryKind) :
    Except LayoutError Directory :=
  if child.parent? = some x.kind then
    match child.pointerTag? with
    | some t => x.addField (Field.long t 0 o)
    | none => pure x
  else pure x

/-- Replaces the structural fields by placeholders for the present kinds. -/
def synthesize (x : Directory) (present : List DirectoryKind) (o : ByteOrder) :
    Except LayoutError Directory := do
  let x := structuralTags.foldl (fun x t => (x.removeField t).1) x
  let x ← present.foldlM (addPointerField o) x
  match x.thumbnail with
  | some th =>
    let length ← checked (Width.bits32.narrow th.size)
    let x ← x.addField (Field.long Tag.thumbnailOffset 0 o)
    x.addField (Field.long Tag.thumbnailLength length o)
  | none => pure x

/-- Adds the placeholders of the present kinds one after another, as `synthesize` does; a refused
one stops the loop, and the directory stays as far as it got. -/
def addPointerFieldsIn (o : ByteOrder) :
    List DirectoryKind → Directory → Directory × Except LayoutError Unit
  | [], x => (x, .ok ())
  | k :: ks, x =>
    match addPointerField o x k with
    | .ok x' => addPointerFieldsIn o ks x'
    | .error e => (x, .error e)

/-- Synthesis in place: the directory as synthesis leaves it, also when it stops at a failure,
and the failure. -/
def synthesizeIn (x : Directory) (present : List DirectoryKind) (o : ByteOrder) :
    Directory × Except LayoutError Unit :=
  match addPointerFieldsIn o present (structuralTags.foldl (fun x t => (x.removeField t).1) x) with
  | (x, .error e) => (x, .error e)
  | (x, .ok ()) =>
    match x.thumbnail with
    | none => (x, .ok ())
    | some th =>
      match checked (Width.bits32.narrow th.size) with
      | .error e => (x, .error e)
      | .ok length =>
        match x.addField (Field.long Tag.thumbnailOffset 0 o) with
        | .error e => (x, .error e)
        | .ok x =>
          match x.addField (Field.long Tag.thumbnailLength length o) with
          | .error e => (x, .error e)
          | .ok x => (x, .ok ())

end Directory

namespace Draft

/-- The first directory whose parent kind is missing. -/
def orphan? (d : Draft) : Option Directory :=
  d.dirs.find? fun x =>
    match x.kind.parent? with
    | some p => !d.dirs.any (·.kind = p)
    | none => false

/-- Every directory with its structural fields made anew and its fields sorted by tag. -/
def synthesize (d : Draft) : Except LayoutError Draft := do
  let present := d.dirs.map (·.kind)
  let dirs ← d.dirs.mapM fun x => do pure (← x.synthesize present d.byteOrder).sortFields
  pure { d with dirs }

/-- Synthesis of directories in place, in order, each sorted once its fields are made; the first
failure stops it, leaving that directory as far as it got and the later ones as they were. -/
def synthesizeDirsIn (present : List DirectoryKind) (o : ByteOrder) :
    List Directory → List Directory × Except LayoutError Unit
  | [] => ([], .ok ())
  | x :: xs =>
    match x.synthesizeIn present o with
    | (x', .error e) => (x' :: xs, .error e)
    | (x', .ok ()) =>
      let r := synthesizeDirsIn present o xs
      (x'.sortFields :: r.1, r.2)

/-- Synthesis of a draft in place: the draft as it is left, and the failure if any. -/
def synthesizeIn (d : Draft) : Draft × Except LayoutError Unit :=
  let r := synthesizeDirsIn (d.dirs.map (·.kind)) d.byteOrder d.dirs
  ({ d with dirs := r.1 }, r.2)

end Draft

namespace Plan

/-- Bytes of an entry table with `n` entries, as a 32-bit length. -/
def tableLength? (n : Nat) : Except LayoutError Nat := do
  let entries ← checked (Width.bits32.mul n entrySize)
  let withCount ← checked (Width.bits32.add entries 2)
  checked (Width.bits32.add withCount 4)

/-- What item generation has gathered so far. -/
structure Gather where
  items : List Item := []
  thumbnailPointers : List Pointer := []
  dirPointers : List Pointer := []
  chain : List (Nat × Nat) := []

/-- The items of out-of-line values; a kept offset places its item in advance. -/
def valueItems (i : Nat) (fields : List Field) : Except LayoutError (List Item) :=
  (fields.zipIdx.filter (·.1.outOfLine)).mapM fun (f, j) => do
    let length ← checked (Width.bits32.narrow f.bytes.size)
    pure ⟨.value i j, length, f.keptOffset⟩

/-- The thumbnail item of directory `i`, which gets the id `id`, and the pointer field that
receives its offset. -/
def thumbnailItem (i : Nat) (x : Directory) (id : Nat) : Except LayoutError (List Item × List Pointer) :=
  match x.thumbnail with
  | some th => do
    let l ← checked (Width.bits32.narrow th.size)
    pure ([⟨.thumbnail i, l, none⟩], [⟨i, Tag.thumbnailOffset, id⟩])
  | none => pure ([], [])

/-- How directory `i`, whose table is item `tableId`, hangs below its parent: by a pointer field
of the parent, or chained after the parent. -/
def link (d : Draft) (x : Directory) (i tableId : Nat) :
    Except LayoutError (List Pointer × List (Nat × Nat)) :=
  match x.kind.parent? with
  | some p =>
    match d.indexOf? p with
    | some parent =>
      match x.kind.pointerTag? with
      | some t => pure ([⟨parent, t, tableId⟩], [])
      | none => pure ([], [(parent, i)])
    | none => throw (.missingParent x.kind)
  | none => pure ([], [])

/-- Adds the items of directory `i` and the references that start or end at it. -/
def gather (d : Draft) (g : Gather) (x : Directory) (i : Nat) : Except LayoutError Gather := do
  let n ← checked (Width.bits32.narrow x.fields.length)
  let length ← tableLength? n
  let tableId := g.items.length
  let values ← valueItems i x.fields
  let items := g.items ++ [⟨.table i, length, none⟩] ++ values
  let (thumb, thumbPointer) ← thumbnailItem i x items.length
  let (dirPointer, chain) ← link d x i tableId
  pure ⟨items ++ thumb, g.thumbnailPointers ++ thumbPointer, g.dirPointers ++ dirPointer,
    g.chain ++ chain⟩

/-- The plan of a draft whose structural fields are synthesized, with the root at `root`. -/
def ofDraft (d : Draft) (root : Nat) : Except LayoutError Plan := do
  let g ← d.dirs.zipIdx.foldlM (fun g (x, i) => gather d g x i) {}
  pure ⟨d.byteOrder, g.items, g.thumbnailPointers ++ g.dirPointers, g.chain, root⟩

end Plan

namespace Draft

/-- Plans a draft: it needs a root directory and the parent of every directory. The draft
comes back with its structural fields synthesized, unchanged when planning fails early. -/
def plan (d : Draft) : Draft × Except LayoutError Plan :=
  match d.indexOf? .root with
  | none => (d, .error .missingRoot)
  | some root =>
    match d.orphan? with
    | some x => (d, .error (.missingParent x.kind))
    | none =>
      match d.synthesizeIn with
      | (d', .error e) => (d', .error e)
      | (d', .ok ()) => (d', Plan.ofDraft d' root)

end Draft

end TiffLayout
