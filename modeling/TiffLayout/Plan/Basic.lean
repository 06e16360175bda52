import TiffLayout.Draft.Basic
/-! A plan lays out a draft: the items to be written, each with a fixed length and an
offset assigned once, the pointer fields that receive item offsets, and the directories
chained through next-directory offsets. Items and pointers name directories and fields by
their index in the draft. -/
namespace TiffLayout

/-- What an item serializes. -/
inductive Part where
  /-- The entry table of a directory. -/
  | table (dir : Nat)
  /-- The out-of-line value of a field. -/
  | value (dir field : Nat)
  /-- The embedded thumbnail of a directory. -/
  | thumbnail (dir : Nat)
  deriving DecidableEq, Repr

/-- A byte range to be written: its part, its length, and its offset once placed. -/
structure Item where
  part : Part
  length : Nat
  offset : Option Nat := none
  deriving DecidableEq, Repr

namespace Item

/-- The offset of a placed item. -/
def offset? (it : Item) : Except LayoutError Nat :=
  match it.offset with
  | some o => .ok o
  | none => .error .itemNotPlaced

/-- Assigns the offset, once, and only an even one. -/
def place (it : Item) (o : Nat) : Except LayoutError Item :=
  if it.offset.isSome then .error .itemAlreadyPlaced
  else if o % 2 = 1 then .error (.unalignedOffset o)
  else .ok { it with offset := some o }

theorem place_ok_iff {it it' : Item} {o : Nat} :
    it.place o = .ok it' ↔ it.offset = none ∧ o % 2 = 0 ∧ it' = { it with offset := some o } := by
  unfold place
  cases h : it.offset with
  | some p => simp
  | none =>
    by_cases ho : o % 2 = 1
    · simp [ho]
    · have h0 : o % 2 = 0 := by omega
      simp [h0, eq_comm]

end Item

/-- A field whose value is the offset of an item. -/
structure Pointer where
  dir : Nat
  tag : Tag
  target : Nat
  deriving DecidableEq, Repr

/-- The items of a draft and the references between them. -/
structure Plan where
  byteOrder : ByteOrder
  items : List Item
  pointers : List Pointer
  /-- Pairs of a directory and the directory chained after it. -/
  chain : List (Nat × Nat)
  /-- The index of the root directory. -/
  root : Nat

namespace Plan

/-- The offset of an item. -/
def itemOffset (p : Plan) (id : Nat) : Except LayoutError Nat :=
  match p.items[id]? with
  | some it => it.offset?
  | none => .error .itemNotPlaced

/-- The id of the entry table item of a directory. -/
def tableItem? (p : Plan) (dir : Nat) : Option Nat := p.items.findIdx? (·.part = .table dir)

/-- The id of the item of a field's out-of-line value. -/
def valueItem? (p : Plan) (dir field : Nat) : Option Nat :=
  p.items.findIdx? (·.part = .value dir field)

/-- The offset of a directory's entry table. -/
def dirOffset (p : Plan) (dir : Nat) : Except LayoutError Nat :=
  match p.tableItem? dir with
  | some id => p.itemOffset id
  | none => .error .itemNotPlaced

/-- The offset of the root directory, which the header names. -/
def rootOffset (p : Plan) : Except LayoutError Nat := p.dirOffset p.root

/-- The directory chained after a directory. -/
def next? (p : Plan) (dir : Nat) : Option Nat := (p.chain.find? (·.1 = dir)).map (·.2)

/-- Places an item at an offset. -/
def place (p : Plan) (id : Nat) (o : Nat) : Except LayoutError Plan :=
  match p.items[id]? with
  | some it => do
    let it' ← it.place o
    pure { p with items := p.items.set id it' }
  | none => .error .itemNotPlaced

end Plan

end TiffLayout
