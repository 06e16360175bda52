import TiffLayout.Draft.Field
import TiffLayout.Kind
import TiffLayout.Error
/-! Directories of a draft: a kind, a byte order, fields with pairwise distinct tags in
the order they were added, and an optional non-empty thumbnail. -/
namespace TiffLayout

/-- A directory to be written. -/
structure Directory where
  kind : DirectoryKind
  byteOrder : ByteOrder
  fields : List Field := []
  thumbnail : Option ByteArray := none

namespace Directory

/-- An empty directory. -/
def empty (kind : DirectoryKind) (o : ByteOrder) : Directory := ⟨kind, o, [], none⟩

/-- The field with a tag. -/
def find? (d : Directory) (t : Tag) : Option Field := d.fields.find? (·.tag = t)

/-- Adds a field after the others; a tag can be present only once. -/
def addField (d : Directory) (f : Field) : Except LayoutError Directory :=
  if d.fields.any (·.tag = f.tag) then .error (.duplicateField f.tag d.kind)
  else .ok { d with fields := d.fields ++ [f] }

theorem addField_ok_iff {d d' : Directory} {f : Field} :
    d.addField f = .ok d' ↔
      (∀ g ∈ d.fields, g.tag ≠ f.tag) ∧ d' = { d with fields := d.fields ++ [f] } := by
  unfold addField
  by_cases h : d.fields.any (·.tag = f.tag)
  · simp only [h, if_true, reduceCtorEq, false_iff, not_and]
    intro hall
    obtain ⟨g, hg, hgt⟩ := List.any_eq_true.mp h
    exact absurd (of_decide_eq_true hgt) (hall g hg)
  · simp only [h, Bool.false_eq_true, if_false, Except.ok.injEq]
    have hall : ∀ g ∈ d.fields, g.tag ≠ f.tag := by
      intro g hg hgt
      exact h (List.any_eq_true.mpr ⟨g, hg, decide_eq_true hgt⟩)
    exact ⟨fun e => ⟨hall, e.symm⟩, fun e => e.2.symm⟩

/-- Takes out the first field with a tag from a list of fields. -/
def takeField (t : Tag) : List Field → List Field × Option Field
  | [] => ([], none)
  | f :: fs =>
    if f.tag = t then (fs, some f)
    else
      let (rest, found) := takeField t fs
      (f :: rest, found)

theorem takeField_fst (t : Tag) (fs : List Field) :
    (takeField t fs).1 = fs.eraseP (·.tag = t) := by
  induction fs with
  | nil => rfl
  | cons f fs ih =>
    by_cases h : f.tag = t
    · simp [takeField, h]
    · simp [takeField, h, ih]

theorem takeField_snd (t : Tag) (fs : List Field) :
    (takeField t fs).2 = fs.find? (·.tag = t) := by
  induction fs with
  | nil => rfl
  | cons f fs ih =>
    by_cases h : f.tag = t
    · simp [takeField, h]
    · simp [takeField, h, ih]

/-- Removes the field with a tag, giving it back. -/
def removeField (d : Directory) (t : Tag) : Directory × Option Field :=
  let (fields, found) := takeField t d.fields
  ({ d with fields }, found)

/-- Changes the first field with a tag. -/
def updateField (d : Directory) (t : Tag) (g : Field → Field) : Directory :=
  let rec go : List Field → List Field
    | [] => []
    | f :: fs => if f.tag = t then g f :: fs else f :: go fs
  { d with fields := go d.fields }

/-- Sets the thumbnail; an empty one is none. -/
def setThumbnail (d : Directory) (t : Option ByteArray) : Directory :=
  { d with thumbnail := t.filter (0 < ·.size) }

/-- Fields ordered by tag; fields with equal tags keep their order. -/
def sortFields (d : Directory) : Directory :=
  { d with fields := d.fields.mergeSort (fun a b => decide (a.tag.code.toNat ≤ b.tag.code.toNat)) }

end Directory

end TiffLayout
