import TiffLayout.Plan.Build
import TiffLayout.Plan.Emit
/-! Compact writing: a segment made anew, with the items of the plan back to back after the
header, each padded to an even length. Nothing of an old layout is kept. -/
namespace TiffLayout

namespace Compact

/-- Places items one after another from `start`, each padded to an even length; gives the
placed items and the end of the last padding. -/
def packFrom (start : Nat) : List Item → Except LayoutError (List Item × Nat)
  | [] => .ok ([], start)
  | it :: its => do
    let placed ← it.place start
    let next ← checked (Width.bits64.add start it.length)
    let next ← checked (Width.bits64.add next (Width.paddingToEven it.length))
    let (rest, stop) ← packFrom next its
    pure (placed :: rest, stop)

/-- The segment of a draft, whose byte order must be the writer's. -/
def write (o : ByteOrder) (d : Draft) : Except LayoutError ByteArray := do
  if o ≠ d.byteOrder then throw (.byteOrderMismatch o d.byteOrder)
  let (d, planned) := d.plan
  let p ← planned
  let (items, length) ← packFrom headerSize p.items
  let p := { p with items }
  let (d, patched) := p.patch d
  patched
  let size ← checked (Width.size.narrow length)
  let root ← p.rootOffset
  let buf ← writeHeader (Buffer.zeros size) o root
  p.writeItems d (List.range p.items.length) buf

end Compact

end TiffLayout
