/-! The logical kinds of image file directory. Their order is the order in which the
directories of a segment are laid out, and every kind but the root hangs below a parent
that must exist for it to be reachable. -/
namespace TiffLayout

/-- The kind of an image file directory: the root (IFD0), the Exif, GPS and
Interoperability directories, and the thumbnail directory (IFD1). -/
inductive DirectoryKind where
  | root
  | exif
  | gps
  | interop
  | thumbnail
  deriving DecidableEq, Repr

namespace DirectoryKind

/-- Position in layout order. -/
def rank : DirectoryKind → Nat
  | root => 0
  | exif => 1
  | gps => 2
  | interop => 3
  | thumbnail => 4

/-- The directory that must exist for this one to be reachable. -/
def parent? : DirectoryKind → Option DirectoryKind
  | root => none
  | exif | gps | thumbnail => some root
  | interop => some exif

/-- The name of a kind in messages. -/
def name : DirectoryKind → String
  | root => "Root"
  | exif => "Exif"
  | gps => "Gps"
  | interop => "Interoperability"
  | thumbnail => "Thumbnail"

/-- The kind's ancestors from the root down, then the kind itself. -/
def lineage : DirectoryKind → List DirectoryKind
  | root => [root]
  | exif => [root, exif]
  | gps => [root, gps]
  | interop => [root, exif, interop]
  | thumbnail => [root, thumbnail]

/-- All kinds in layout order. -/
def all : List DirectoryKind := [root, exif, gps, interop, thumbnail]

/-- The kind that a name denotes. -/
def ofName? (s : String) : Option DirectoryKind :=
  all.find? (·.name == s)

theorem rank_injective {a b : DirectoryKind} (h : a.rank = b.rank) : a = b := by
  cases a <;> cases b <;> simp_all [rank]

/-- A parent comes before its child in layout order. -/
theorem rank_parent_lt {k p : DirectoryKind} (h : k.parent? = some p) : p.rank < k.rank := by
  cases k <;> simp_all [parent?, rank] <;> subst h <;> decide

end DirectoryKind

end TiffLayout
