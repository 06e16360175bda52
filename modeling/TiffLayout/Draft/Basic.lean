import TiffLayout.Draft.Directory
/-! A draft is the edit of a whole segment: a byte order and at most one directory per
kind, kept in layout order. Directories are created together with the parents they need;
fields are found, removed and kept at old offsets across all directories. -/
namespace TiffLayout

/-- All directories of an edit, in layout order. -/
structure Draft where
  byteOrder : ByteOrder
  dirs : List Directory := []

namespace Draft

/-- An empty draft. -/
def empty (o : ByteOrder) : Draft := ⟨o, []⟩

/-- The directory of a kind. -/
def find? (d : Draft) (k : DirectoryKind) : Option Directory := d.dirs.find? (·.kind = k)

/-- The index of the directory of a kind. -/
def indexOf? (d : Draft) (k : DirectoryKind) : Option Nat := d.dirs.findIdx? (·.kind = k)

/-- Inserts a directory before the first one of a later or equal kind. -/
def insertSorted (x : Directory) : List Directory → List Directory
  | [] => [x]
  | y :: ys => if y.kind.rank < x.kind.rank then y :: insertSorted x ys else x :: y :: ys

theorem mem_insertSorted {x y : Directory} {ys : List Directory} :
    y ∈ insertSorted x ys ↔ y = x ∨ y ∈ ys := by
  induction ys with
  | nil => simp [insertSorted]
  | cons z zs ih =>
    unfold insertSorted
    split
    · simp only [List.mem_cons, ih]
      constructor
      · rintro (h | h | h) <;> simp [h]
      · rintro (h | h | h) <;> simp [h]
    · simp

theorem length_insertSorted (x : Directory) (ys : List Directory) :
    (insertSorted x ys).length = ys.length + 1 := by
  induction ys with
  | nil => rfl
  | cons z zs ih =>
    unfold insertSorted
    split <;> simp [ih]

/-- Adds a directory; its kind must be new and its byte order the draft's. -/
def addDirectory (d : Draft) (x : Directory) : Except LayoutError Draft :=
  if d.dirs.any (·.kind = x.kind) then .error (.directoryExists x.kind)
  else if x.byteOrder ≠ d.byteOrder then .error (.byteOrderMismatch d.byteOrder x.byteOrder)
  else .ok { d with dirs := insertSorted x d.dirs }

/-- Adds an empty directory of a kind unless there is one. -/
def ensure (d : Draft) (k : DirectoryKind) : Draft :=
  if d.dirs.any (·.kind = k) then d
  else { d with dirs := insertSorted (Directory.empty k d.byteOrder) d.dirs }

/-- Makes sure that a directory of the kind exists, creating its ancestors first. -/
def getOrCreate (d : Draft) (k : DirectoryKind) : Draft :=
  k.lineage.foldl ensure d

/-- Changes the directory of a kind. -/
def update (d : Draft) (k : DirectoryKind) (g : Directory → Directory) : Draft :=
  { d with dirs := d.dirs.map fun x => if x.kind = k then g x else x }

/-- The first field with a tag, searching the directories in order. -/
def findField? (d : Draft) (t : Tag) : Option Field := d.dirs.findSome? (·.find? t)

/-- Removes a tag from every directory, giving back what was removed. -/
def removeFieldAll (d : Draft) (t : Tag) : Draft × List Field :=
  let results := d.dirs.map (·.removeField t)
  ({ d with dirs := results.map (·.1) }, results.filterMap (·.2))

/-- Marks the first field with the tag as keeping `offset`, if it is out of line, keeps no
offset yet, and holds exactly `value`; only the first directory holding the tag is looked at. -/
def keepOffsetIn (t : Tag) (value : ByteArray) (offset : Nat) :
    List Directory → List Directory × Bool
  | [] => ([], false)
  | x :: xs =>
    match x.find? t with
    | some f =>
      if f.outOfLine ∧ f.keptOffset = none ∧ f.bytes.data = value.data then
        (x.updateField t (fun f => { f with keptOffset := some offset }) :: xs, true)
      else (x :: xs, false)
    | none =>
      let (rest, kept) := keepOffsetIn t value offset xs
      (x :: rest, kept)

/-- Keeps the old offset of an unchanged out-of-line value; tells whether it was kept. -/
def keepOffset (d : Draft) (t : Tag) (value : ByteArray) (offset : Nat) : Draft × Bool :=
  let (dirs, kept) := keepOffsetIn t value offset d.dirs
  ({ d with dirs }, kept)

/-- All offsets that fields keep. -/
def keptOffsets (d : Draft) : List Nat :=
  d.dirs.flatMap fun x => x.fields.filterMap (·.keptOffset)

/-- Forgets all kept offsets. -/
def clearKeptOffsets (d : Draft) : Draft :=
  { d with dirs := d.dirs.map fun x =>
      { x with fields := x.fields.map fun f => { f with keptOffset := none } } }

end Draft

end TiffLayout
