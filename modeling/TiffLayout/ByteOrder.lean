/-! The two byte orders of a segment, its two-byte marker, and words written in either
order. A word of `w` bytes is `encode w n`; `decode` reads it back below `capacity w`, the
number of values that `w` bytes hold. -/
namespace TiffLayout

/-- The order of the bytes of every multi-byte word in a segment. -/
inductive ByteOrder where
  | little
  | big
  deriving DecidableEq, Repr

namespace ByteOrder

/-- The number of values that `w` bytes hold. -/
def capacity : Nat → Nat
  | 0 => 1
  | w + 1 => 256 * capacity w

/-- Least significant byte first. -/
def encodeLE : Nat → Nat → List UInt8
  | 0, _ => []
  | w + 1, n => (n % 256).toUInt8 :: encodeLE w (n / 256)

/-- The number whose least significant byte comes first. -/
def decodeLE : List UInt8 → Nat
  | [] => 0
  | b :: bs => b.toNat + 256 * decodeLE bs

/-- The `w` bytes of `n` (taken modulo `capacity w`) in this order. -/
def encode (o : ByteOrder) (w n : Nat) : List UInt8 :=
  match o with
  | little => encodeLE w n
  | big => (encodeLE w n).reverse

/-- The number that the bytes spell in this order. -/
def decode (o : ByteOrder) (bytes : List UInt8) : Nat :=
  match o with
  | little => decodeLE bytes
  | big => decodeLE bytes.reverse

/-- The two bytes `II` or `MM` that open a segment. -/
def marker : ByteOrder → List UInt8
  | little => [0x49, 0x49]
  | big => [0x4D, 0x4D]

/-- The byte order that two marker bytes announce, if any. -/
def ofMarker? (b0 b1 : UInt8) : Option ByteOrder :=
  if b0 = 0x49 ∧ b1 = 0x49 then some little
  else if b0 = 0x4D ∧ b1 = 0x4D then some big
  else none

/-- The name of an order in messages. -/
def name : ByteOrder → String
  | little => "LittleEndian"
  | big => "BigEndian"

/-- The short code of an order. -/
def code : ByteOrder → String
  | little => "LE"
  | big => "BE"

@[simp] theorem length_encodeLE (w n : Nat) : (encodeLE w n).length = w := by
  induction w generalizing n with
  | zero => rfl
  | succ w ih => simp [encodeLE, ih]

@[simp] theorem length_encode (o : ByteOrder) (w n : Nat) : (o.encode w n).length = w := by
  cases o <;> simp [encode]

theorem decodeLE_encodeLE (w n : Nat) : decodeLE (encodeLE w n) = n % capacity w := by
  induction w generalizing n with
  | zero => simp [encodeLE, decodeLE, capacity, Nat.mod_one]
  | succ w ih =>
    simp only [encodeLE, decodeLE, ih, capacity]
    have h : ((n % 256).toUInt8).toNat = n % 256 := by simp [Nat.toUInt8]
    rw [h, Nat.mod_mul]

theorem decode_encode (o : ByteOrder) (w n : Nat) : o.decode (o.encode w n) = n % capacity w := by
  cases o <;> simp [encode, decode, decodeLE_encodeLE]

theorem ofMarker?_marker (o : ByteOrder) :
    ofMarker? (o.marker.getD 0 0) (o.marker.getD 1 0) = some o := by
  cases o <;> decide

end ByteOrder

end TiffLayout
