import TiffLayout.Proofs.Occupied
import TiffLayout.Proofs.TableRead
/-! Which segments the reader accepts: data of fewer than 2^32 bytes reads exactly when it
`Accepts` a byte order, and otherwise fails with the fault of the first of `Segment.checks`
that does not hold. -/
namespace TiffLayout

namespace Segment

/-- A condition that reading checks, and the failure reported when it is the first that does not
hold. -/
structure Check where
  holds : Bool
  fault : ReadError

/-- The fault of the first check that does not hold. -/
def firstFault : List Check → Option ReadError
  | [] => none
  | c :: cs => if c.holds then firstFault cs else some c.fault

@[simp] theorem firstFault_nil : firstFault [] = none := rfl

@[simp] theorem firstFault_cons (c : Check) (cs : List Check) :
    firstFault (c :: cs) = if c.holds then firstFault cs else some c.fault := rfl

theorem firstFault_append (cs cs' : List Check) :
    firstFault (cs ++ cs') = (firstFault cs).or (firstFault cs') := by
  induction cs with
  | nil => rfl
  | cons c cs ih => by_cases h : c.holds <;> simp [h, ih]

theorem firstFault_eq_none_iff {cs : List Check} :
    firstFault cs = none ↔ ∀ c ∈ cs, c.holds = true := by
  induction cs with
  | nil => simp
  | cons c cs ih => by_cases h : c.holds <;> simp [h, ih]

/-- A computation that fails exactly as a list of checks does: with the fault of the first check
that does not hold. -/
def FailsAs {α : Type} (r : Except ReadError α) (cs : List Check) : Prop :=
  ∀ e, r = .error e ↔ firstFault cs = some e

namespace FailsAs

variable {α β : Type} {r x : Except ReadError α} {cs cs' : List Check}

/-- A computation that fails exactly as its checks succeeds exactly when they all hold. -/
theorem ok_iff (h : FailsAs r cs) : (∃ a, r = .ok a) ↔ firstFault cs = none := by
  cases r with
  | ok a =>
    refine ⟨fun _ => ?_, fun _ => ⟨a, rfl⟩⟩
    cases hf : firstFault cs with
    | none => rfl
    | some e => cases (h e).2 hf
  | error e =>
    constructor
    · rintro ⟨a, ha⟩
      cases ha
    · intro hnone
      simpa [hnone] using h e

theorem ok (a : α) : FailsAs (.ok a : Except ReadError α) [] := by
  intro e
  simp

theorem of_holds (a : α) (h : ∀ c ∈ cs, c.holds = true) :
    FailsAs (.ok a : Except ReadError α) cs := by
  intro e
  simp [firstFault_eq_none_iff.2 h]

theorem error {e : ReadError} (h : firstFault cs = some e) :
    FailsAs (.error e : Except ReadError α) cs := by
  intro e'
  simp [h]

/-- A test that fails with `e` exactly when `p` does not hold. -/
theorem ite (p : Prop) [Decidable p] (a : α) (e : ReadError) :
    FailsAs (if p then .ok a else .error e) [⟨decide p, e⟩] := by
  intro e'
  by_cases hp : p <;> simp [hp, eq_comm]

/-- A check that holds adds no failure. -/
theorem cons_holds {c : Check} (hc : c.holds = true) (h : FailsAs r cs) : FailsAs r (c :: cs) := by
  intro e
  simpa [hc] using h e

/-- A computation followed by another fails as the checks of the first, then those of the second. -/
theorem bind {f : α → Except ReadError β} (hx : FailsAs x cs)
    (hf : ∀ a, x = .ok a → FailsAs (f a) cs') : FailsAs (x >>= f) (cs ++ cs') := by
  intro e
  rw [firstFault_append]
  cases x with
  | error e' =>
    have h := (hx e').1 rfl
    simp [h, bind, Except.bind]
  | ok a =>
    have h : firstFault cs = none := hx.ok_iff.1 ⟨a, rfl⟩
    simpa [h] using hf a rfl e

/-- Traversing the indices below `n` fails exactly as the checks of the indices in turn, when each
index reached through the checks before it fails as its own checks. -/
theorem mapM_range {f : Nat → Except ReadError β} {cs : Nat → List Check}
    (P : Nat → Prop) (hf : ∀ i, P i → FailsAs (f i) (cs i))
    (hstep : ∀ i, P i → firstFault (cs i) = none → P (i + 1)) (h0 : P 0) :
    ∀ n, FailsAs ((List.range n).mapM f) ((List.range n).flatMap cs) ∧
      (firstFault ((List.range n).flatMap cs) = none → P n) := by
  intro n
  induction n with
  | zero => exact ⟨FailsAs.ok [], fun _ => h0⟩
  | succ n ih =>
    obtain ⟨hfails, hP⟩ := ih
    rw [List.range_succ, List.mapM_append, List.flatMap_append, List.flatMap_singleton]
    refine ⟨FailsAs.bind hfails fun bs hbs => ?_, fun hnone => ?_⟩
    · have hn := hP (hfails.ok_iff.1 ⟨bs, hbs⟩)
      rw [← List.append_nil (cs n), List.mapM_cons, List.mapM_nil]
      simp only [pure_bind, bind_assoc]
      exact FailsAs.bind (hf n hn) fun b _ => FailsAs.ok _
    · rw [firstFault_append, Option.or_eq_none_iff] at hnone
      exact hstep n (hP hnone.1) hnone.2

end FailsAs

/-! ### The bytes of the data -/

/-- The `n` bytes from `p` on, as far as the data reaches. -/
def bytesFrom (data : ByteArray) (p n : Nat) : List UInt8 := (data.data.toList.drop p).take n

/-- The `n`-byte word at `p` in the given order. -/
def wordFrom (data : ByteArray) (o : ByteOrder) (p n : Nat) : Nat := o.decode (bytesFrom data p n)

@[simp] theorem take_bytesFrom (data : ByteArray) (p n m : Nat) :
    (bytesFrom data p n).take m = bytesFrom data p (min m n) := by
  simp [bytesFrom, List.take_take]

@[simp] theorem drop_bytesFrom (data : ByteArray) (p n m : Nat) :
    (bytesFrom data p n).drop m = bytesFrom data (p + m) (n - m) := by
  simp [bytesFrom, List.drop_take, List.drop_drop]

theorem getD_bytesFrom (data : ByteArray) {p n i : Nat} (hi : i < n) :
    (bytesFrom data p n).getD i 0 = data.data.toList.getD (p + i) 0 := by
  simp [bytesFrom, List.getD_eq_getElem?_getD, hi]

theorem bytesAt_eq (data : ByteArray) (p n : Nat) :
    bytesAt data p n = if p + n ≤ data.size then .ok (bytesFrom data p n) else .error .truncated := by
  unfold bytesAt slice?
  by_cases h : p + n ≤ data.size
  · simp [h, bytesFrom, List.extract_eq_take_drop]
  · simp [h]

theorem wordAt_eq (data : ByteArray) (o : ByteOrder) (p n : Nat) :
    wordAt data o p n = if p + n ≤ data.size then .ok (wordFrom data o p n) else .error .truncated := by
  unfold wordAt
  rw [bytesAt_eq]
  split <;> rfl

/-- Reading past the end fails, and only so. -/
theorem bytesAt_failsAs (data : ByteArray) (p n : Nat) :
    FailsAs (bytesAt data p n) [⟨decide (p + n ≤ data.size), .truncated⟩] := by
  rw [bytesAt_eq]
  exact FailsAs.ite _ _ _

theorem wordAt_failsAs (data : ByteArray) (o : ByteOrder) (p n : Nat) :
    FailsAs (wordAt data o p n) [⟨decide (p + n ≤ data.size), .truncated⟩] := by
  rw [wordAt_eq]
  exact FailsAs.ite _ _ _

/-! ### Entries -/

/-- The tag in the first two of the twelve bytes of the entry at `p`. -/
def tagAt (data : ByteArray) (o : ByteOrder) (p : Nat) : Tag := ⟨(wordFrom data o p 2).toUInt16⟩

/-- The type in the next two bytes. -/
def typeAt (data : ByteArray) (o : ByteOrder) (p : Nat) : FieldType :=
  ⟨(wordFrom data o (p + 2) 2).toUInt16⟩

/-- The count in the next four bytes. -/
def countAt (data : ByteArray) (o : ByteOrder) (p : Nat) : Nat := wordFrom data o (p + 4) 4

/-- The length of the value: the count times the size of the type. -/
def lengthAt (data : ByteArray) (o : ByteOrder) (p : Nat) : Nat :=
  countAt data o p * (typeAt data o p).size

/-- The offset that the last four bytes, the slot, hold. -/
def offsetAt (data : ByteArray) (o : ByteOrder) (p : Nat) : Nat := wordFrom data o (p + 8) 4

/-- The parts of the twelve bytes of an entry. -/
theorem bytesFrom_entry (data : ByteArray) (p : Nat) :
    (bytesFrom data p 12).take 2 = bytesFrom data p 2 ∧
      ((bytesFrom data p 12).drop 2).take 2 = bytesFrom data (p + 2) 2 ∧
      ((bytesFrom data p 12).drop 4).take 4 = bytesFrom data (p + 4) 4 ∧
      (bytesFrom data p 12).drop 8 = bytesFrom data (p + 8) 4 := by
  simp

/-- The checks of the entry at `p`, in the order the reader makes them: its twelve bytes lie in the
data, the length of its value is a 32-bit word, and a value longer than four bytes lies after the
header and within the data. -/
def entryChecks (data : ByteArray) (o : ByteOrder) (p : Nat) : List Check :=
  [⟨decide (p + entrySize ≤ data.size), .truncated⟩,
   ⟨decide (lengthAt data o p < Width.bits32.bound),
     .arith (.mul (countAt data o p) (typeAt data o p).size)⟩,
   ⟨decide (lengthAt data o p ≤ 4 ∨
       headerSize ≤ offsetAt data o p ∧ offsetAt data o p + lengthAt data o p ≤ data.size),
     .valueOutOfBounds (tagAt data o p) (offsetAt data o p) (lengthAt data o p)⟩]

/-- A checked product fails exactly when it leaves the 32-bit words. -/
theorem mul_failsAs (a b : Nat) :
    FailsAs ((Width.bits32.mul a b).mapError ReadError.arith)
      [⟨decide (a * b < Width.bits32.bound), .arith (.mul a b)⟩] := by
  have h : (Width.bits32.mul a b).mapError ReadError.arith =
      if a * b < Width.bits32.bound then .ok (a * b) else .error (.arith (.mul a b)) := by
    unfold Width.mul
    split <;> rfl
  rw [h]
  exact FailsAs.ite _ _ _

/-- An entry at a 32-bit position is read exactly when its checks hold, and fails with the fault of
the first that does not. -/
theorem readEntry_failsAs {data : ByteArray} {o : ByteOrder} {p : Nat}
    (hp : p < Width.bits32.bound) : FailsAs (readEntry data o p) (entryChecks data o p) := by
  have hpos : (Width.bits32.narrow p).mapError ReadError.arith = .ok p := by
    simp [Except.mapError, Width.narrow, hp]
  unfold readEntry
  rw [hpos, ok_bind]
  show FailsAs _ ([_] ++ ([_] ++ [_]))
  refine FailsAs.bind (bytesAt_failsAs data p entrySize) fun raw hraw => ?_
  have hfits : p + entrySize ≤ data.size := by
    by_contra h
    rw [bytesAt_eq, if_neg h] at hraw
    cases hraw
  rw [bytesAt_eq, if_pos hfits] at hraw
  obtain rfl := (Except.ok.inj hraw).symm
  obtain ⟨htag, htype, hcount, hslot⟩ := bytesFrom_entry data p
  simp only [entrySize] at *
  simp only [htag, htype, hcount, hslot]
  refine FailsAs.bind (mul_failsAs _ _) fun length hlength => ?_
  obtain ⟨-, rfl⟩ := Width.mul_ok_iff.1 (mapError_eq_ok.1 hlength)
  split
  · rename_i hsmall
    exact FailsAs.of_holds _ (by simp [lengthAt, countAt, typeAt, wordFrom, hsmall])
  · rename_i hlarge
    split
    · rename_i value hslice
      obtain ⟨hinside, -⟩ := slice?_eq_some hslice
      split
      · rename_i hheader
        exact FailsAs.of_holds _
          (by simp [lengthAt, countAt, typeAt, offsetAt, wordFrom, hheader, hinside])
      · rename_i hheader
        exact FailsAs.error
          (by simp [tagAt, lengthAt, countAt, typeAt, offsetAt, wordFrom, hlarge, hheader])
    · rename_i hslice
      have hout : ¬ o.decode (bytesFrom data (p + 8) 4) + o.decode (bytesFrom data (p + 4) 4) *
          (⟨(o.decode (bytesFrom data (p + 2) 2)).toUInt16⟩ : FieldType).size ≤ data.size := by
        intro h
        simp [slice?, h] at hslice
      exact FailsAs.error
        (by simp [tagAt, lengthAt, countAt, typeAt, offsetAt, wordFrom, hlarge, hout])

/-! ### Tables and the whole read -/

/-- The checks of the directory table at `r`, in reading order: the entry count can be read, each
entry passes its checks in turn, and the next-directory offset can be read, so that the whole table
of `2 + 12 * n + 4` bytes lies in the data. -/
def tableChecks (data : ByteArray) (o : ByteOrder) (r : Nat) : List Check :=
  let n := wordFrom data o r 2
  ⟨decide (r + 2 ≤ data.size), .truncated⟩ ::
    ((List.range n).flatMap fun i => entryChecks data o (r + 2 + entrySize * i)) ++
    [⟨decide (r + Ifd.tableLength n ≤ data.size), .truncated⟩]

/-- A table in data of fewer than 2^32 bytes is read exactly when its checks hold. -/
theorem readIfd_failsAs {data : ByteArray} {o : ByteOrder} {kind : DirectoryKind} {r : Nat}
    (hsize : data.size < Width.bits32.bound) :
    FailsAs (readIfd data o kind r) (tableChecks data o r) := by
  unfold readIfd tableChecks
  show FailsAs _ ([_] ++ (_ ++ ([_] ++ [])))
  refine FailsAs.bind (wordAt_failsAs data o r 2) fun n hn => ?_
  have hcount : r + 2 ≤ data.size := by
    by_contra h
    rw [wordAt_eq, if_neg h] at hn
    cases hn
  rw [wordAt_eq, if_pos hcount] at hn
  obtain rfl := (Except.ok.inj hn).symm
  -- an entry is reached only when the bytes before it lie in the data, so its position is a word
  have hentries := FailsAs.mapM_range (fun i => r + 2 + entrySize * i ≤ data.size)
    (fun i hi => @readEntry_failsAs data o _ (Nat.lt_of_le_of_lt hi hsize))
    (fun i _ hnone => by
      have h := (firstFault_eq_none_iff.1 hnone) _ List.mem_cons_self
      simp only [decide_eq_true_eq] at h
      rw [Nat.mul_succ, ← Nat.add_assoc]
      exact h)
    (by simpa using hcount) (wordFrom data o r 2)
  refine FailsAs.bind hentries.1 fun entries _ => ?_
  have htable : r + 2 + entrySize * wordFrom data o r 2 + 4 =
      r + Ifd.tableLength (wordFrom data o r 2) := by
    simp only [Ifd.tableLength]
    omega
  have hnext := wordAt_failsAs data o (r + 2 + entrySize * wordFrom data o r 2) 4
  rw [htable] at hnext
  refine FailsAs.bind hnext fun next hnext' => ?_
  have hfits : r + Ifd.tableLength (wordFrom data o r 2) ≤ data.size := by
    by_contra h
    rw [wordAt_eq, htable, if_neg h] at hnext'
    cases hnext'
  have hn : wordFrom data o r 2 < Width.bits16.bound := by
    have h := o.decode_lt (bytesFrom data r 2)
    have hlen : (bytesFrom data r 2).length = 2 := by
      simp [bytesFrom]
      omega
    rw [hlen] at h
    exact h
  simp only [tableLength?_of_lt hn, Except.mapError, slice?, hfits, if_true, ok_bind]
  exact FailsAs.ok _

/-- The byte order that the first two bytes announce. -/
def markerOrder? (data : ByteArray) : Option ByteOrder :=
  ByteOrder.ofMarker? (data.data.toList.getD 0 0) (data.data.toList.getD 1 0)

/-- The root offset, the last four bytes of the header. -/
def rootAt (data : ByteArray) (o : ByteOrder) : Nat := wordFrom data o 4 4

/-- Every check that reading makes, in reading order: the marker, the magic number and the root
offset of the header, each once its bytes are known to lie in the data, then the offset of the root
table and the checks of the table. -/
def checks (data : ByteArray) : List Check :=
  ⟨decide (2 ≤ data.size), .truncated⟩ ::
    match markerOrder? data with
    | none => [⟨false, .unknownByteOrder (data.data.toList.getD 0 0) (data.data.toList.getD 1 0)⟩]
    | some o =>
      ⟨decide (4 ≤ data.size), .truncated⟩ ::
        ⟨decide (wordFrom data o 2 2 = magic), .badMagic (wordFrom data o 2 2)⟩ ::
        ⟨decide (headerSize ≤ data.size), .truncated⟩ ::
        ⟨decide (headerSize ≤ rootAt data o ∧ rootAt data o < data.size),
          .badDirectoryOffset (rootAt data o)⟩ :: tableChecks data o (rootAt data o)

/-- The marker bytes that the header reads. -/
theorem marker_bytesFrom (data : ByteArray) :
    (bytesFrom data 0 2).getD 0 0 = data.data.toList.getD 0 0 ∧
      (bytesFrom data 0 2).getD 1 0 = data.data.toList.getD 1 0 :=
  ⟨getD_bytesFrom data (by decide), getD_bytesFrom data (by decide)⟩

/-- A header without a known marker fails as soon as its marker can be read. -/
theorem readHeader_failsAs_none {data : ByteArray} (hm : markerOrder? data = none) :
    FailsAs (readHeader data) [⟨decide (2 ≤ data.size), .truncated⟩,
      ⟨false, .unknownByteOrder (data.data.toList.getD 0 0) (data.data.toList.getD 1 0)⟩] := by
  unfold readHeader
  show FailsAs _ ([_] ++ [_])
  refine FailsAs.bind (bytesAt_failsAs data 0 2) fun m hm' => ?_
  have hfits : 0 + 2 ≤ data.size := by
    by_contra h
    rw [bytesAt_eq, if_neg h] at hm'
    cases hm'
  rw [bytesAt_eq, if_pos hfits] at hm'
  obtain rfl := (Except.ok.inj hm').symm
  obtain ⟨h0, h1⟩ := marker_bytesFrom data
  simp only [h0, h1, show ByteOrder.ofMarker? _ _ = none from hm]
  exact FailsAs.error (by simp)

/-- A header with a known marker fails as its checks do, and otherwise gives the byte order and the
root offset. -/
theorem readHeader_failsAs_some {data : ByteArray} {o : ByteOrder} (hm : markerOrder? data = some o) :
    FailsAs (readHeader data) [⟨decide (2 ≤ data.size), .truncated⟩,
        ⟨decide (4 ≤ data.size), .truncated⟩,
        ⟨decide (wordFrom data o 2 2 = magic), .badMagic (wordFrom data o 2 2)⟩,
        ⟨decide (headerSize ≤ data.size), .truncated⟩] ∧
      ∀ a, readHeader data = .ok a → a = (o, rootAt data o) := by
  obtain ⟨h0, h1⟩ := marker_bytesFrom data
  by_cases h2 : 0 + 2 ≤ data.size
  · have hm' : bytesAt data 0 2 = .ok (bytesFrom data 0 2) := by rw [bytesAt_eq, if_pos h2]
    unfold readHeader
    simp only [hm', ok_bind, h0, h1, show ByteOrder.ofMarker? _ _ = some o from hm]
    constructor
    · refine FailsAs.cons_holds (by simpa using h2) ?_
      show FailsAs _ ([_] ++ ([_] ++ ([_] ++ [])))
      refine FailsAs.bind (wordAt_failsAs data o 2 2) fun found hfound => ?_
      have h4 : 2 + 2 ≤ data.size := by
        by_contra h
        rw [wordAt_eq, if_neg h] at hfound
        cases hfound
      rw [wordAt_eq, if_pos h4] at hfound
      obtain rfl := (Except.ok.inj hfound).symm
      by_cases hmagic : wordFrom data o 2 2 = magic
      · simp only [ne_eq, hmagic, not_true_eq_false, if_false]
        refine FailsAs.cons_holds (by simp) ?_
        show FailsAs _ ([_] ++ [])
        exact FailsAs.bind (wordAt_failsAs data o 4 4) fun _ _ => FailsAs.ok _
      · simp only [ne_eq, hmagic, not_false_eq_true, if_true]
        exact FailsAs.error (by simp)
    · intro a ha
      obtain ⟨found, hfound, ha⟩ := bind_eq_ok.1 ha
      split at ha
      · obtain ⟨_, h, -⟩ := bind_eq_ok.1 ha
        cases h
      · obtain ⟨root, hroot, ha⟩ := bind_eq_ok.1 ha
        have h8 : 4 + 4 ≤ data.size := by
          by_contra h
          rw [wordAt_eq, if_neg h] at hroot
          cases hroot
        rw [wordAt_eq, if_pos h8] at hroot
        obtain rfl := (Except.ok.inj hroot).symm
        exact (Except.ok.inj ha).symm
  · have hfail : readHeader data = .error .truncated := by
      unfold readHeader
      rw [bytesAt_eq, if_neg h2]
      rfl
    rw [hfail]
    have h2' : ¬ 2 ≤ data.size := h2
    exact ⟨FailsAs.error (by simp [h2']), fun a ha => by cases ha⟩

/-- Reading data of fewer than 2^32 bytes fails exactly as its checks. -/
theorem read_failsAs {data : ByteArray} (hsize : data.size < Width.bits32.bound) :
    FailsAs (read data) (checks data) := by
  unfold read checks
  rcases hm : markerOrder? data with _ | o
  · have h := readHeader_failsAs_none hm
    show FailsAs _ ([_, _] ++ [])
    refine FailsAs.bind h fun a ha => ?_
    have hnone := h.ok_iff.1 ⟨a, ha⟩
    simp only [firstFault_cons] at hnone
    split at hnone <;> simp at hnone
  · obtain ⟨hheader, hok⟩ := readHeader_failsAs_some hm
    show FailsAs _ ([_, _, _, _] ++ (_ :: tableChecks data o (rootAt data o)))
    refine FailsAs.bind hheader fun a ha => ?_
    obtain rfl := hok a ha
    by_cases hr : rootAt data o < headerSize ∨ data.size ≤ rootAt data o
    · simp only [Walk.readAt, hr, if_true]
      refine FailsAs.error ?_
      simp only [firstFault_cons, decide_eq_true_eq]
      rw [if_neg (by omega)]
    · simp only [Walk.readAt, hr, if_false, List.not_mem_nil]
      refine FailsAs.cons_holds (by simp only [decide_eq_true_eq]; omega) ?_
      rw [← List.append_nil (tableChecks data o (rootAt data o))]
      exact FailsAs.bind (readIfd_failsAs hsize) fun _ _ => FailsAs.ok _

/-! ### What reading requires -/

/-- What an entry needs to be read once its twelve bytes are there: a value length that is a
32-bit word, and a value longer than four bytes that lies after the header and within the data. -/
structure EntryFits (data : ByteArray) (o : ByteOrder) (p : Nat) : Prop where
  length : lengthAt data o p < Width.bits32.bound
  value : 4 < lengthAt data o p →
    headerSize ≤ offsetAt data o p ∧ offsetAt data o p + lengthAt data o p ≤ data.size

/-- What data needs to be read in the byte order `o`: a header of eight bytes whose marker
announces `o`, then the magic number; a root offset after the header and inside the data; a root
table of `2 + 12 * n + 4` bytes that lies in the data; and root entries that fit. -/
structure Accepts (data : ByteArray) (o : ByteOrder) : Prop where
  header : headerSize ≤ data.size
  marker : markerOrder? data = some o
  magic : wordFrom data o 2 2 = magic
  root : headerSize ≤ rootAt data o ∧ rootAt data o < data.size
  table : rootAt data o + Ifd.tableLength (wordFrom data o (rootAt data o) 2) ≤ data.size
  entries : ∀ i < wordFrom data o (rootAt data o) 2,
    EntryFits data o (rootAt data o + 2 + entrySize * i)

theorem entryChecks_hold_iff {data : ByteArray} {o : ByteOrder} {p : Nat} :
    (∀ c ∈ entryChecks data o p, c.holds = true) ↔
      p + entrySize ≤ data.size ∧ EntryFits data o p := by
  simp only [entryChecks, List.mem_cons, List.not_mem_nil, or_false, forall_eq_or_imp, forall_eq,
    decide_eq_true_eq]
  constructor
  · rintro ⟨hbytes, hlen, hvalue⟩
    exact ⟨hbytes, hlen, fun hlarge => hvalue.resolve_left (by omega)⟩
  · rintro ⟨hbytes, hlen, hvalue⟩
    refine ⟨hbytes, hlen, ?_⟩
    by_cases hsmall : lengthAt data o p ≤ 4
    · exact Or.inl hsmall
    · exact Or.inr (hvalue (by omega))

/-- The checks of a table hold exactly when the table lies in the data and its entries fit. -/
theorem tableChecks_hold_iff {data : ByteArray} {o : ByteOrder} {r : Nat} :
    (∀ c ∈ tableChecks data o r, c.holds = true) ↔
      r + Ifd.tableLength (wordFrom data o r 2) ≤ data.size ∧
        ∀ i < wordFrom data o r 2, EntryFits data o (r + 2 + entrySize * i) := by
  simp only [tableChecks, List.mem_cons, List.mem_append, List.mem_flatMap, List.mem_range,
    List.not_mem_nil, or_false]
  constructor
  · intro h
    have htable := h _ (Or.inr rfl)
    refine ⟨by simpa using htable, fun i hi => ?_⟩
    exact (entryChecks_hold_iff.1 fun c hc => h c (Or.inl (Or.inr ⟨i, hi, hc⟩))).2
  · rintro ⟨htable, hentries⟩ c hc
    simp only [Ifd.tableLength] at htable
    rcases hc with (rfl | ⟨i, hi, hc⟩) | rfl
    · exact decide_eq_true (by omega)
    · have hbytes : r + 2 + entrySize * i + entrySize ≤ data.size := by
        have : entrySize * i + entrySize ≤ entrySize * wordFrom data o r 2 := by
          rw [← Nat.mul_succ]
          exact Nat.mul_le_mul_left _ hi
        omega
      exact entryChecks_hold_iff.2 ⟨hbytes, hentries i hi⟩ c hc
    · exact decide_eq_true (by simp only [Ifd.tableLength]; omega)

/-- All checks hold exactly when the data accepts the byte order of its marker. -/
theorem checks_hold_iff {data : ByteArray} :
    (∀ c ∈ checks data, c.holds = true) ↔ ∃ o, Accepts data o := by
  unfold checks
  rcases hm : markerOrder? data with _ | o
  · simp only [List.mem_cons, List.not_mem_nil, or_false, forall_eq_or_imp, forall_eq,
      Bool.false_eq_true, and_false, false_iff, not_exists]
    intro o h
    simp [h.marker] at hm
  · simp only [List.forall_mem_cons, decide_eq_true_eq, tableChecks_hold_iff]
    constructor
    · rintro ⟨-, -, hmagic, hheader, hroot, htable, hentries⟩
      exact ⟨o, hheader, hm, hmagic, hroot, htable, hentries⟩
    · rintro ⟨o', hheader, hm', hmagic, hroot, htable, hentries⟩
      obtain rfl : o' = o := Option.some.inj (hm'.symm.trans hm)
      have h8 : 8 ≤ data.size := hheader
      exact ⟨by omega, by omega, hmagic, hheader, hroot, htable, hentries⟩

/-- Data of fewer than 2^32 bytes reads exactly when it accepts the byte order of its marker: a
header with the magic number, a root table after it that lies in the data, root entries whose
values have 32-bit lengths and, when longer than four bytes, lie after the header and in the data.
No defect past the root table fails a read. A read that fails, fails with the fault of the first
check in reading order that does not hold. -/
theorem read_iff_checks {data : ByteArray} (hsize : data.size < Width.bits32.bound) :
    ((∃ s, read data = .ok s) ↔ ∃ o, Accepts data o) ∧
      ∀ e, read data = .error e ↔ firstFault (checks data) = some e :=
  ⟨((read_failsAs hsize).ok_iff.trans firstFault_eq_none_iff).trans checks_hold_iff,
    read_failsAs hsize⟩

/-- A root entry of ten ASCII bytes at offset 32 of data that ends at 26: the value runs past the
end, so no byte order is accepted, and reading fails with that fault. -/
theorem read_iff_checks_valueOutOfBounds :
    (⟨#[0x49, 0x49, 0x2A, 0, 8, 0, 0, 0, 1, 0, 0x0E, 1, 2, 0, 10, 0, 0, 0, 32, 0, 0, 0, 0, 0, 0, 0]⟩ :
        ByteArray).size < Width.bits32.bound ∧
      ((∃ s, read ⟨#[0x49, 0x49, 0x2A, 0, 8, 0, 0, 0, 1, 0, 0x0E, 1, 2, 0, 10, 0, 0, 0, 32, 0, 0, 0,
          0, 0, 0, 0]⟩ = .ok s) ↔
        ∃ o, Accepts ⟨#[0x49, 0x49, 0x2A, 0, 8, 0, 0, 0, 1, 0, 0x0E, 1, 2, 0, 10, 0, 0, 0, 32, 0, 0,
          0, 0, 0, 0, 0]⟩ o) ∧
      ∀ e, read ⟨#[0x49, 0x49, 0x2A, 0, 8, 0, 0, 0, 1, 0, 0x0E, 1, 2, 0, 10, 0, 0, 0, 32, 0, 0, 0, 0,
          0, 0, 0]⟩ = .error e ↔
        firstFault (checks ⟨#[0x49, 0x49, 0x2A, 0, 8, 0, 0, 0, 1, 0, 0x0E, 1, 2, 0, 10, 0, 0, 0, 32,
          0, 0, 0, 0, 0, 0, 0]⟩) = some e :=
  ⟨by decide, read_iff_checks (by decide)⟩

example : read ⟨#[0x49, 0x49, 0x2A, 0, 8, 0, 0, 0, 1, 0, 0x0E, 1, 2, 0, 10, 0, 0, 0, 32, 0, 0, 0, 0, 0,
    0, 0]⟩ = .error (.valueOutOfBounds ⟨0x010E⟩ 32 10) := rfl

end Segment

end TiffLayout
