import TiffLayout.Segment.Basic
/-! Why an edit or a write of a segment fails. -/
namespace TiffLayout

/-- Failures of editing a draft and of laying out and writing a segment. -/
inductive LayoutError where
  /-- The old segment that a write reuses cannot be read. -/
  | analysis (e : ReadError)
  | emptyAnalysis
  | directoryExists (k : DirectoryKind)
  | duplicateField (t : Tag) (k : DirectoryKind)
  | missingRoot
  | missingParent (k : DirectoryKind)
  | itemNotPlaced
  | itemAlreadyPlaced
  | unresolvedReference (t : Tag)
  | unalignedOffset (offset : Nat)
  | byteOrderMismatch (expected actual : ByteOrder)
  | arith (e : ArithError)
  /-- A write ran past the end of the buffer. -/
  | overrun
  deriving DecidableEq, Repr

namespace LayoutError

/-- The text of a failure. -/
def message : LayoutError → String
  | analysis e => "Couldn't analyze old segment: " ++ e.message
  | emptyAnalysis => "Analysis of old segment found no elements"
  | directoryExists k => "Output set already contains a directory of type " ++ k.name
  | duplicateField t k => "Directory " ++ k.name ++ " already contains field " ++ t.display
  | missingRoot => "Output set has no root directory"
  | missingParent k => "Directory " ++ k.name ++ " requires its parent directory"
  | itemNotPlaced => "Output item has not been placed"
  | itemAlreadyPlaced => "Output item has already been placed"
  | unresolvedReference t => "Reference " ++ t.display ++ " points to an item that doesn't exist"
  | unalignedOffset o => s!"Output item offset {o} is not word aligned"
  | byteOrderMismatch e a => "Byte order mismatch: expected " ++ e.name ++ ", got " ++ a.name
  | arith e => "Math: " ++ e.message
  | overrun => "IO: failed to write whole buffer"

end LayoutError

/-- A checked word operation inside a layout. -/
def checked {α : Type} (r : Except ArithError α) : Except LayoutError α :=
  r.mapError .arith

end TiffLayout
