import TiffLayout.Error
/-! Writing into a buffer of fixed size. Output is produced as pieces, each either bytes
or the failure that stops the output; the bytes before the first failure are written from
an offset on, as far as the buffer reaches, and output that does not fit fails as an
overrun before any later failure. -/
namespace TiffLayout

/-- The bytes that pieces of output produce before the first failure, and that failure. -/
structure Emission where
  bytes : List UInt8
  stop : Option LayoutError

namespace Emission

/-- Bytes up to the first failing piece. -/
def ofPieces : List (Except LayoutError (List UInt8)) → Emission
  | [] => ⟨[], none⟩
  | .ok b :: rest =>
    let e := ofPieces rest
    ⟨b ++ e.bytes, e.stop⟩
  | .error err :: _ => ⟨[], some err⟩

end Emission

namespace Buffer

/-- Writes bytes from `offset` on; bytes past the end of the buffer are dropped. -/
def put (buf : ByteArray) (offset : Nat) (bytes : List UInt8) : ByteArray :=
  if offset < buf.size then
    ByteArray.copySlice ⟨bytes.toArray⟩ 0 buf offset (min bytes.length (buf.size - offset))
  else buf

@[simp] theorem size_put (buf : ByteArray) (offset : Nat) (bytes : List UInt8) :
    (put buf offset bytes).size = buf.size := by
  unfold put
  split
  · simp only [ByteArray.copySlice, ByteArray.size, Array.size_append, Array.size_extract,
      List.size_toArray]
    omega
  · rfl

/-- Writes pieces of output from `offset` on. Non-empty output that runs past the end
fails as an overrun; otherwise the first failing piece decides. -/
def emitAt (buf : ByteArray) (offset : Nat) (pieces : List (Except LayoutError (List UInt8))) :
    ByteArray × Except LayoutError Unit :=
  let e := Emission.ofPieces pieces
  let out := put buf offset e.bytes
  if e.bytes ≠ [] ∧ buf.size < offset + e.bytes.length then (out, .error .overrun)
  else
    match e.stop with
    | some err => (out, .error err)
    | none => (out, .ok ())

@[simp] theorem size_emitAt (buf : ByteArray) (offset : Nat)
    (pieces : List (Except LayoutError (List UInt8))) :
    (emitAt buf offset pieces).1.size = buf.size := by
  unfold emitAt
  dsimp only
  split
  · exact size_put ..
  · split <;> exact size_put ..

/-- A buffer of zeros. -/
def zeros (n : Nat) : ByteArray := ⟨Array.replicate n 0⟩

@[simp] theorem size_zeros (n : Nat) : (zeros n).size = n := by
  simp only [zeros, ByteArray.size, Array.size_replicate]

/-- Clears the bytes from `start` up to `stop`, as far as the buffer reaches. -/
def clear (buf : ByteArray) (start stop : Nat) : ByteArray :=
  let s := min start buf.size
  let t := min stop buf.size
  put buf s (List.replicate (t - s) 0)

@[simp] theorem size_clear (buf : ByteArray) (start stop : Nat) :
    (clear buf start stop).size = buf.size := size_put ..

end Buffer

end TiffLayout
