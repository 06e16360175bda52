import TiffLayout.Write.Reuse
import TiffLayout.Draft.OfSegment
/-! Rebuilding a segment: read its structure, take the draft that reproduces it, and write
that draft in the segment's own byte order, compactly or reusing the old layout with the
default frozen tags. -/
namespace TiffLayout

/-- Why a segment cannot be rebuilt: it cannot be read, or its draft cannot be written. -/
inductive RebuildError where
  | read (e : ReadError)
  | layout (e : LayoutError)
  deriving DecidableEq, Repr

/-- Rebuilds a segment, compactly or reusing its layout. -/
def rebuild (data : ByteArray) (compact : Bool) : Except RebuildError ByteArray := do
  let s ← (Segment.read data).mapError .read
  let d ← (Draft.ofSegment s).mapError .layout
  let out := if compact then Compact.write s.byteOrder d
    else Reuse.write s.byteOrder data Reuse.defaultFrozen d
  out.mapError .layout

end TiffLayout
