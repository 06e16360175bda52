/-! Checked arithmetic on unsigned machine words. Offsets, lengths and counts of a segment
live in words of four widths; every operation either gives the exact result, which fits
the width, or an `ArithError` that names its operands. -/
namespace TiffLayout

/-- The word widths in which offsets, lengths and counts are held; `size` is the
64-bit width of in-memory sizes. -/
inductive Width where
  | bits16
  | bits32
  | bits64
  | size
  deriving DecidableEq, Repr

/-- A failed checked operation, with its operands. -/
inductive ArithError where
  | add (a b : Nat)
  | sub (a b : Nat)
  | mul (a b : Nat)
  | narrow (n : Nat)
  deriving DecidableEq, Repr

namespace ArithError

/-- The text of a failure; operands are printed as present optional values. -/
def message : ArithError → String
  | add a b => s!"Operation Some({a}) + Some({b}) failed"
  | sub a b => s!"Operation Some({a}) - Some({b}) failed"
  | mul a b => s!"Operation Some({a}) * Some({b}) failed"
  | narrow n => s!"Conversion failed for value Some({n})"

end ArithError

namespace Width

/-- Number of bits of a word. -/
def bits : Width → Nat
  | bits16 => 16
  | bits32 => 32
  | bits64 => 64
  | size => 64

/-- The values of a word are exactly those below its bound, two to the number of bits. -/
def bound : Width → Nat
  | bits16 => 65536
  | bits32 => 4294967296
  | bits64 => 18446744073709551616
  | size => 18446744073709551616

theorem bound_eq_two_pow_bits (w : Width) : w.bound = Nat.pow 2 w.bits := by
  cases w <;> rfl

/-- The largest value of a word. -/
def max (w : Width) : Nat := w.bound - 1

/-- Whether a number is a value of the word. -/
def fits (w : Width) (n : Nat) : Bool := n < w.bound

/-- Sum, if it fits. -/
def add (w : Width) (a b : Nat) : Except ArithError Nat :=
  if a + b < w.bound then .ok (a + b) else .error (.add a b)

/-- Difference, if it is not negative. -/
def sub (_w : Width) (a b : Nat) : Except ArithError Nat :=
  if b ≤ a then .ok (a - b) else .error (.sub a b)

/-- Product, if it fits. -/
def mul (w : Width) (a b : Nat) : Except ArithError Nat :=
  if a * b < w.bound then .ok (a * b) else .error (.mul a b)

/-- A number taken into the word, if it fits. -/
def narrow (w : Width) (n : Nat) : Except ArithError Nat :=
  if n < w.bound then .ok n else .error (.narrow n)

/-- Rounds up to the next even value; an odd maximum has none. -/
def alignEven (w : Width) (a : Nat) : Except ArithError Nat :=
  if a % 2 = 0 then .ok a else w.add a 1

/-- Number of bytes that reach the next even value. -/
def paddingToEven (a : Nat) : Nat := a % 2

/-- Whether the lowest bit is set. -/
def isOdd (a : Nat) : Bool := a % 2 = 1

@[simp] theorem add_ok_iff {w : Width} {a b c : Nat} :
    w.add a b = .ok c ↔ a + b < w.bound ∧ c = a + b := by
  unfold add; by_cases h : a + b < w.bound <;> simp [h, eq_comm]

@[simp] theorem sub_ok_iff {w : Width} {a b c : Nat} :
    w.sub a b = .ok c ↔ b ≤ a ∧ c = a - b := by
  unfold sub; by_cases h : b ≤ a <;> simp [h, eq_comm]

@[simp] theorem mul_ok_iff {w : Width} {a b c : Nat} :
    w.mul a b = .ok c ↔ a * b < w.bound ∧ c = a * b := by
  unfold mul; by_cases h : a * b < w.bound <;> simp [h, eq_comm]

@[simp] theorem narrow_ok_iff {w : Width} {n c : Nat} :
    w.narrow n = .ok c ↔ n < w.bound ∧ c = n := by
  unfold narrow; by_cases h : n < w.bound <;> simp [h, eq_comm]

end Width

end TiffLayout
