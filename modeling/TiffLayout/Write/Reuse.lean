import TiffLayout.Write.Compact
import TiffLayout.Write.Gaps
/-! Writing that reuses the layout of an old segment: the items go best fit into the gaps of its
runs or past its tail, and frozen unchanged values stay where they were. -/
namespace TiffLayout

namespace Reuse

/-- The tags whose unchanged values keep their offset unless others are given. -/
def defaultFrozen : List Tag := [Tag.makerNote]

/-- Drops the gaps that end where the tail begins, which moves the tail's start down;
the gaps are ordered by descending offset. -/
def trimTail : List Extent → Nat → Except LayoutError (List Extent × Nat)
  | [], tail => .ok ([], tail)
  | e :: es, tail => do
    let stop ← checked e.end?
    if stop = tail then
      let tail' ← checked (Width.bits64.sub tail e.length)
      trimTail es tail'
    else .ok (e :: es, tail)

/-- The even start of a gap and the length usable from there. -/
def aligned (e : Extent) : Except LayoutError (Nat × Nat) :=
  if e.offset % 2 = 1 then do
    let start ← checked (Width.bits64.add e.offset 1)
    pure (start, e.length - 1)
  else .ok (e.offset, e.length)

/-- The last gap, in pool order, that holds `length` once aligned, among the gaps before
the first one shorter than `length`; with its index. -/
def bestFit (length : Nat) : List Extent → Nat → Option (Nat × Extent) →
    Except LayoutError (Option (Nat × Extent))
  | [], _, best => .ok best
  | e :: es, i, best =>
    if e.length < length then .ok best
    else do
      let (_, usable) ← aligned e
      bestFit length es (i + 1) (if length ≤ usable then some (i, e) else best)

/-- Gaps by descending length; a stable sort by ascending length, reversed, so that gaps of
equal length change their order. -/
def resort (pool : List Extent) : List Extent :=
  (pool.mergeSort fun a b => decide (a.length ≤ b.length)).reverse

/-- What placement works on: the plan, the pool of gaps and the start of the free tail. -/
structure Placing where
  plan : Plan
  pool : List Extent
  tail : Nat

/-- Places one item of the given length. -/
def placeOne (s : Placing) (item : Nat × Nat) : Except LayoutError Placing := do
  let (id, length) := item
  match ← bestFit length s.pool 0 none with
  | none =>
    let start ← checked (Width.bits64.alignEven s.tail)
    let plan ← s.plan.place id start
    let tail ← checked (Width.bits64.add start length)
    pure ⟨plan, s.pool, tail⟩
  | some (i, e) =>
    let pool := s.pool.eraseIdx i
    let (start, usable) ← aligned e
    let plan ← s.plan.place id start
    if length < usable then
      let rest ← checked (Width.bits64.add start length)
      pure ⟨plan, resort (pool ++ [⟨rest, usable - length⟩]), s.tail⟩
    else pure ⟨plan, pool, s.tail⟩

/-- The length of an item. -/
def itemLength (p : Plan) (id : Nat) : Except LayoutError (Nat × Nat) :=
  match p.items[id]? with
  | some it => .ok (id, it.length)
  | none => .error .itemNotPlaced

/-- Places the items `ids` into the gaps of `runs` or after the tail of an old segment of
`oldLength` bytes; gives the plan and the length of the new segment. -/
def place (runs : List Extent) (oldLength : Nat) (p : Plan) (ids : List Nat) :
    Except LayoutError (Plan × Nat) := do
  let (pool, tail) ← trimTail (Extent.sortByOffset runs).reverse oldLength
  let pool := pool.mergeSort fun a b => decide (b.length ≤ a.length)
  let sized ← ids.mapM (itemLength p)
  let order := (sized.mergeSort fun a b => decide (a.2 ≤ b.2)).reverse
  let s ← order.foldlM placeOne ⟨p, pool, tail⟩
  pure (s.plan, max s.tail headerSize)

/-- The new segment before its items are written: the old bytes as far as they reach, with
the runs of the old structure cleared. -/
def canvas (old : ByteArray) (runs : List Extent) (length : Nat) : Except LayoutError ByteArray := do
  let size ← checked (Width.size.narrow length)
  let buf := Buffer.put (Buffer.zeros size) 0 (old.extract 0 (min old.size size)).data.toList
  runs.foldlM (fun buf e => do
    let stop ← checked e.end?
    pure (Buffer.clear buf e.offset stop)) buf

/-- The ids of the items that are written: all but those kept at a frozen offset. -/
def writtenIds (p : Plan) (frozenOffsets : List Nat) : List Nat :=
  (p.items.zipIdx.filter fun (it, _) =>
    match it.offset with
    | some o => !frozenOffsets.contains o
    | none => true).map (·.2)

/-- The segment of a draft whose frozen unchanged values keep their offsets, laid out into the
gaps of `runs`, the analysis of `old`. -/
def writeGaps (o : ByteOrder) (old : ByteArray) (runs : List Extent) (d : Draft) :
    Except LayoutError ByteArray := do
  let frozenOffsets := d.keptOffsets
  let (d, planned) := d.plan
  let p ← planned
  let ids := writtenIds p frozenOffsets
  let (p, length) ← place runs old.size p ids
  let (d, patched) := p.patch d
  patched
  let buf ← canvas old runs length
  let root ← p.rootOffset
  let buf ← writeHeader buf o root
  p.writeItems d ids buf

/-- The segment of a draft that reuses the layout of `old`; values of `frozen` tags that are
unchanged keep their offset. -/
def write (o : ByteOrder) (old : ByteArray) (frozen : List Tag) (d : Draft) :
    Except LayoutError ByteArray := do
  if o ≠ d.byteOrder then throw (.byteOrderMismatch o d.byteOrder)
  let (runs, d) ← Gaps.analyze old o d frozen
  let first :: rest := runs | throw .emptyAnalysis
  let whole ← if rest = [] ∧ first.offset = headerSize then do
      let stop ← checked first.end?
      pure (decide (stop = old.size))
    else pure false
  if whole then Compact.write o d.clearKeptOffsets
  else writeGaps o old runs d

end Reuse

namespace Draft

/-- Writes a draft: reusing the layout of an old segment when there is one, compactly
otherwise. -/
def writeSegment (old : Option ByteArray) (d : Draft) (o : ByteOrder) : Except LayoutError ByteArray :=
  match old with
  | some b => Reuse.write o b Reuse.defaultFrozen d
  | none => Compact.write o d

end Draft

end TiffLayout
