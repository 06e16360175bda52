import TiffLayout.Draft.Basic
/-! The draft that reproduces a read segment. Pointer and thumbnail entries are left out,
since writing computes them anew; of several entries with one tag only the first is kept. -/
namespace TiffLayout

namespace Directory

/-- The fields of entries, in entry order, without structural tags and without a second
entry of a tag. -/
def ofEntries (d : Directory) : List Entry → Directory
  | [] => d
  | e :: es =>
    if e.tag.isStructural then ofEntries d es
    else
      match d.addField (Field.raw e.tag e.type e.count e.value) with
      | .ok d' => ofEntries d' es
      | .error _ => ofEntries d es

/-- The directory that reproduces a directory as read. -/
def ofIfd (o : ByteOrder) (x : Ifd) : Directory :=
  ((Directory.empty x.kind o).ofEntries x.entries).setThumbnail (x.thumbnail.map (·.bytes))

end Directory

namespace Draft

/-- The draft that reproduces a read segment. -/
def ofSegment (s : Segment) : Except LayoutError Draft :=
  s.ifds.foldlM (fun d x => d.addDirectory (Directory.ofIfd s.byteOrder x)) (Draft.empty s.byteOrder)

end Draft

end TiffLayout
