import TiffLayout.Draft.Basic
/-! The normal form of a draft, which writing and reading back produce, and the invariant that
every edit of a draft keeps. -/
namespace TiffLayout

namespace Field

/-- The field without its kept offset. -/
def forget (f : Field) : Field := { f with keptOffset := none }

end Field

namespace Directory

/-- The fields that a written and read-back directory holds: no structural tags, sorted by
tag, no kept offsets. -/
def normalFields (fields : List Field) : List Field :=
  ((fields.filter fun f => !f.tag.isStructural).map Field.forget).mergeSort
    fun a b => decide (a.tag.code.toNat ≤ b.tag.code.toNat)

/-- The directory that a written and read-back directory is. -/
def normalize (x : Directory) : Directory := { x with fields := normalFields x.fields }

end Directory

namespace Draft

/-- The draft that writing this one and reading it back reproduces. -/
def normalize (d : Draft) : Draft := { d with dirs := d.dirs.map Directory.normalize }

/-- The invariant that every edit of a draft keeps. -/
structure WellFormed (d : Draft) : Prop where
  /-- Directories are in strictly increasing layout order, so at most one has a kind. -/
  sorted : (d.dirs.map (·.kind.rank)).Pairwise (· < ·)
  /-- Every directory has the draft's byte order. -/
  byteOrder : ∀ x ∈ d.dirs, x.byteOrder = d.byteOrder
  /-- No tag is present twice in a directory. -/
  distinctTags : ∀ x ∈ d.dirs, (x.fields.map (·.tag)).Nodup
  /-- No field keeps an old offset. -/
  noKeptOffsets : ∀ x ∈ d.dirs, ∀ f ∈ x.fields, f.keptOffset = none
  /-- A thumbnail is never empty. -/
  thumbnails : ∀ x ∈ d.dirs, ∀ t, x.thumbnail = some t → 0 < t.size

/-- Every directory's parent kind is present. -/
def ParentClosed (d : Draft) : Prop :=
  ∀ x ∈ d.dirs, ∀ p, x.kind.parent? = some p → ∃ y ∈ d.dirs, y.kind = p

theorem wellFormed_empty (o : ByteOrder) : (empty o).WellFormed where
  sorted := List.Pairwise.nil
  byteOrder := by simp [empty]
  distinctTags := by simp [empty]
  noKeptOffsets := by simp [empty]
  thumbnails := by simp [empty]

theorem parentClosed_empty (o : ByteOrder) : (empty o).ParentClosed := by
  simp [ParentClosed, empty]

end Draft

end TiffLayout
