import TiffLayout.Segment.Basic
/-! A plain-text account of a read segment: the byte order, then per directory its kind,
offset and next offset, one line per entry with tag, type, count, location and a preview
of the value, and the thumbnail if there is one. -/
namespace TiffLayout

namespace Segment

/-- Values longer than this are cut short in a preview. -/
def previewLimit : Nat := 16

/-- A value as `[0A, FF]`: two upper-case digits per byte; a long value shows its first
bytes followed by an ellipsis. -/
def preview (value : List UInt8) : String :=
  let shown := value.take previewLimit
  let text := "[" ++ ", ".intercalate (shown.map fun b => Hex.upper 2 b.toNat) ++ "]"
  if previewLimit < value.length then text ++ "…" else text

/-- The line of one entry. -/
def entryLine (e : Entry) : String :=
  let location := match e.slot with
    | .inline _ => "inline"
    | .outOfLine p => s!"at {p}"
  e.tag.display ++ " " ++ e.type.name ++ s!"({e.count}) " ++ location ++ ": " ++
    preview e.value.data.toList ++ "\n"

/-- The block of one directory. -/
def ifdBlock (d : Ifd) : String :=
  let head := "\n" ++ d.kind.name ++ s!" - Defined at {d.offset} - Next {d.next}\n" ++
    "------------------------------\n"
  let body := String.join (d.entries.map entryLine)
  let thumb := match d.thumbnail with
    | some t => s!"Thumbnail at {t.offset} with {t.bytes.size} bytes\n"
    | none => ""
  head ++ body ++ thumb

/-- The whole account of a segment. -/
def dump (s : Segment) : String :=
  "Byte order " ++ s.byteOrder.name ++ "\n" ++ String.join (s.ifds.map ifdBlock)

end Segment

end TiffLayout
