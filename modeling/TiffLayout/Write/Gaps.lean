import TiffLayout.Segment.Read
import TiffLayout.Extent
import TiffLayout.Draft.Basic
/-! The byte ranges of an old segment that a new layout may clear and reuse: its entry
tables, out-of-line values and thumbnails, coalesced into runs. An out-of-line value whose
tag is frozen and that the draft holds unchanged is left out: the draft's field keeps the
value's old offset instead. -/
namespace TiffLayout

namespace Gaps

/-- The range of one entry of a directory as read: an out-of-line value whose tag is frozen
and that the draft holds unchanged keeps its offset in the draft; any other out-of-line value is
a range to reuse. -/
def ofEntry (frozen : List Tag) (acc : List Extent × Draft) (e : Entry) : List Extent × Draft :=
  let (acc, d) := acc
  match e.slot with
  | .outOfLine p =>
    if frozen.contains e.tag then
      match d.keepOffset e.tag e.value p with
      | (d', true) => (acc, d')
      | (_, false) => (acc ++ [⟨p, e.value.size⟩], d)
    else (acc ++ [⟨p, e.value.size⟩], d)
  | .inline _ => (acc, d)

/-- The ranges of one directory as read, keeping the offsets of frozen unchanged values. -/
def ofIfd (frozen : List Tag) (acc : List Extent × Draft) (x : Ifd) : List Extent × Draft :=
  let (acc, d) := acc
  let (acc, d) := x.entries.foldl (ofEntry frozen) (acc ++ [⟨x.offset, x.table.size⟩], d)
  match x.thumbnail with
  | some t => (acc ++ [⟨t.offset, t.bytes.size⟩], d)
  | none => (acc, d)

/-- The runs of an old segment that may be reused, and the draft with the offsets of its
frozen unchanged values kept. The old segment must have the writer's byte order. -/
def analyze (old : ByteArray) (o : ByteOrder) (d : Draft) (frozen : List Tag) :
    Except LayoutError (List Extent × Draft) := do
  let s ← (Segment.read old).mapError .analysis
  if o ≠ s.byteOrder then throw (.byteOrderMismatch o s.byteOrder)
  let (extents, d) := s.ifds.foldl (ofIfd frozen) ([], d)
  let runs ← checked (Extent.coalesce extents)
  pure (runs, d)

end Gaps

end TiffLayout
