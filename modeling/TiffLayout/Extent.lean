import TiffLayout.Width
/-! Byte ranges that a segment occupies, and their coalescing, in offset order, into runs whose
gaps are wider than `Extent.tolerance`. -/
namespace TiffLayout

/-- A range of bytes: where it starts and how many bytes it spans. -/
structure Extent where
  offset : Nat
  length : Nat
  deriving DecidableEq, Repr

namespace Extent

/-- Largest gap between two ranges that still joins them into one run. -/
def tolerance : Nat := 3

/-- The first byte after the range, if it is a 64-bit offset. -/
def end? (e : Extent) : Except ArithError Nat := Width.bits64.add e.offset e.length

/-- The range from `start` to `stop`, whose length must be a 32-bit word. -/
def span (start stop : Nat) : Except ArithError Extent := do
  let length ← Width.bits32.narrow (stop - start)
  pure ⟨start, length⟩

/-- Ranges by offset; ranges that start together keep their order. -/
def sortByOffset (es : List Extent) : List Extent :=
  es.mergeSort (fun a b => decide (a.offset ≤ b.offset))

/-- Coalesces sorted ranges into runs, given the current run from `start` to `stop`. -/
def coalesceFrom (start stop : Nat) : List Extent → Except ArithError (List Extent)
  | [] => do pure [← span start stop]
  | e :: es => do
    let stop' ← e.end?
    let limit ← Width.bits64.add stop tolerance
    if limit < e.offset then
      let run ← span start stop
      let rest ← coalesceFrom e.offset stop' es
      pure (run :: rest)
    else
      coalesceFrom start (max stop stop') es

/-- The runs that a set of ranges coalesces into, ordered by offset. -/
def coalesce (es : List Extent) : Except ArithError (List Extent) :=
  match sortByOffset es with
  | [] => pure []
  | e :: rest => do
    let stop ← e.end?
    coalesceFrom e.offset stop rest

theorem sortByOffset_perm (es : List Extent) : (sortByOffset es).Perm es :=
  List.mergeSort_perm _ _

theorem sortByOffset_sorted (es : List Extent) :
    (sortByOffset es).Pairwise (fun a b => a.offset ≤ b.offset) := by
  have h : (sortByOffset es).Pairwise (fun a b => decide (a.offset ≤ b.offset) = true) :=
    List.pairwise_mergeSort
      (fun a b c hab hbc => by simp only [decide_eq_true_eq] at *; omega)
      (fun a b => by simp only [Bool.or_eq_true, decide_eq_true_eq]; omega) es
  exact h.imp (fun hab => by simpa using hab)

end Extent

end TiffLayout
