import TiffLayout.Buffer
import TiffLayout.Segment.Read
import TiffLayout.Proofs.Except
/-! Bytes standing in a buffer. Writing puts bytes at an offset and leaves every other position
as it was; reading takes the bytes at an offset back. Both are stated through `Holds`, which
says that a list of bytes stands in the buffer from an offset on. -/
namespace TiffLayout

namespace ByteOrder

@[simp] theorem capacity_two : capacity 2 = 65536 := rfl

@[simp] theorem capacity_four : capacity 4 = 4294967296 := rfl

theorem decode_encode_of_lt (o : ByteOrder) {w n : Nat} (h : n < capacity w) :
    o.decode (o.encode w n) = n := by
  rw [decode_encode, Nat.mod_eq_of_lt h]

theorem decodeLE_lt (bs : List UInt8) : decodeLE bs < capacity bs.length := by
  induction bs with
  | nil => simp [decodeLE, capacity]
  | cons b bs ih =>
    have hb := b.toNat_lt
    simp only [decodeLE, List.length_cons, capacity]
    omega

/-- A word of `w` bytes is below the number of values that `w` bytes hold. -/
theorem decode_lt (o : ByteOrder) (bs : List UInt8) : o.decode bs < capacity bs.length := by
  cases o with
  | little => exact decodeLE_lt bs
  | big => simpa [decode] using decodeLE_lt bs.reverse

theorem encode_inj_of_lt (o : ByteOrder) {w a b : Nat} (ha : a < capacity w) (hb : b < capacity w)
    (h : o.encode w a = o.encode w b) : a = b := by
  rw [← o.decode_encode_of_lt ha, h, o.decode_encode_of_lt hb]

end ByteOrder

namespace Buffer

/-- The bytes `bs` stand in the buffer from `off` on. -/
structure Holds (buf : ByteArray) (off : Nat) (bs : List UInt8) : Prop where
  bound : off + bs.length ≤ buf.size
  get : ∀ i, i < bs.length → buf.data.toList[off + i]? = bs[i]?

theorem toList_put (buf : ByteArray) (off : Nat) (bs : List UInt8) :
    (put buf off bs).data.toList =
      buf.data.toList.take off ++ bs.take (buf.size - off) ++ buf.data.toList.drop (off + bs.length) := by
  have hsize : buf.data.toList.length = buf.size := Array.length_toList
  unfold put
  split
  · simp [ByteArray.copySlice]
    by_cases hfit : bs.length ≤ buf.size - off
    · rw [Nat.min_eq_left hfit, List.take_of_length_le (l := bs) (Nat.le_refl _),
        List.take_of_length_le (l := bs) hfit, List.take_of_length_le (by simp [hsize])]
    · rw [Nat.min_eq_right (by omega), List.drop_of_length_le (l := buf.data.toList) (by omega),
        List.drop_of_length_le (l := buf.data.toList) (by omega)]
      simp
  · rename_i h
    rw [List.take_of_length_le (by omega), List.drop_of_length_le (by omega),
      Nat.sub_eq_zero_of_le (by omega)]
    simp

/-- A position of the buffer after a write: inside the written range, the written byte;
outside it, the old one. -/
theorem getElem?_put (buf : ByteArray) (off : Nat) (bs : List UInt8) (k : Nat) :
    (put buf off bs).data.toList[k]? =
      if off ≤ k ∧ k < off + bs.length ∧ k < buf.size then bs[k - off]? else buf.data.toList[k]? := by
  have hsize : buf.data.toList.length = buf.size := Array.length_toList
  rw [toList_put]
  split
  · rename_i hk
    have hpre : (buf.data.toList.take off).length = off := by
      rw [List.length_take, hsize, Nat.min_eq_left (by omega)]
    have hmid : (bs.take (buf.size - off)).length = min bs.length (buf.size - off) := by
      rw [List.length_take, Nat.min_comm]
    rw [List.getElem?_append_left (by rw [List.length_append, hpre, hmid]; omega),
      List.getElem?_append_right (by rw [hpre]; omega), hpre,
      List.getElem?_take_of_lt (by omega)]
  · rename_i hk
    by_cases hout : k < buf.size
    · by_cases hlt : k < off
      · have hpre : k < (buf.data.toList.take off).length := by
          rw [List.length_take, hsize]; omega
        rw [List.getElem?_append_left (by rw [List.length_append]; omega),
          List.getElem?_append_left hpre, List.getElem?_take_of_lt hlt]
      · have hpre : (buf.data.toList.take off).length = off := by
          rw [List.length_take, hsize, Nat.min_eq_left (by omega)]
        have hmid : (bs.take (buf.size - off)).length = bs.length := by
          rw [List.length_take, Nat.min_eq_right (by omega)]
        rw [List.getElem?_append_right (by rw [List.length_append, hpre, hmid]; omega),
          List.getElem?_drop, List.length_append, hpre, hmid]
        congr 1
        omega
    · rw [List.getElem?_eq_none (by rw [List.length_append, List.length_append,
        List.length_take, List.length_take, List.length_drop, hsize]; omega),
        List.getElem?_eq_none (by omega)]

theorem put_holds {buf : ByteArray} {off : Nat} {bs : List UInt8} (h : off + bs.length ≤ buf.size) :
    Holds (put buf off bs) off bs where
  bound := by rw [size_put]; exact h
  get i hi := by
    rw [getElem?_put, if_pos ⟨by omega, by omega, by omega⟩, Nat.add_sub_cancel_left]

/-- A write that does not meet bytes standing elsewhere keeps them. -/
theorem Holds.put_apart {buf : ByteArray} {o off : Nat} {bs cs : List UInt8} (h : Holds buf o bs)
    (hapart : off + cs.length ≤ o ∨ o + bs.length ≤ off) : Holds (put buf off cs) o bs where
  bound := by rw [size_put]; exact h.bound
  get i hi := by
    rw [getElem?_put, if_neg (by omega)]
    exact h.get i hi

theorem holds_append {buf : ByteArray} {off : Nat} {bs cs : List UInt8} :
    Holds buf off (bs ++ cs) ↔ Holds buf off bs ∧ Holds buf (off + bs.length) cs := by
  constructor
  · intro h
    have hb := h.bound
    rw [List.length_append] at hb
    refine ⟨⟨by omega, fun i hi => ?_⟩, ⟨by omega, fun i hi => ?_⟩⟩
    · rw [h.get i (by rw [List.length_append]; omega), List.getElem?_append_left hi]
    · rw [Nat.add_assoc, h.get (bs.length + i) (by rw [List.length_append]; omega),
        List.getElem?_append_right (by omega), Nat.add_sub_cancel_left]
  · rintro ⟨hb, hc⟩
    refine ⟨by have := hc.bound; rw [List.length_append]; omega, fun i hi => ?_⟩
    rw [List.length_append] at hi
    by_cases hlt : i < bs.length
    · rw [hb.get i hlt, List.getElem?_append_left hlt]
    · have := hc.get (i - bs.length) (by omega)
      rw [Nat.add_assoc, Nat.add_sub_cancel' (by omega)] at this
      rw [this, List.getElem?_append_right (by omega)]

/-- Blocks of one length laid end to end: block `j` stands `k * j` bytes after the first. -/
theorem holds_flatMap {α : Type} {buf : ByteArray} {g : α → List UInt8} {k : Nat} :
    ∀ {l : List α} {off : Nat}, (∀ a ∈ l, (g a).length = k) → Holds buf off (l.flatMap g) →
      ∀ j (hj : j < l.length), Holds buf (off + k * j) (g l[j])
  | [], _, _, _, j, hj => absurd hj (Nat.not_lt_zero j)
  | a :: l, off, hk, h, j, hj => by
    rw [List.flatMap_cons] at h
    obtain ⟨ha, hl⟩ := holds_append.1 h
    cases j with
    | zero => simpa using ha
    | succ j =>
      have hrest := holds_flatMap (fun b hb => hk b (List.mem_cons_of_mem a hb)) hl j
        (by simpa using hj)
      rw [hk a List.mem_cons_self] at hrest
      rw [List.getElem_cons_succ, Nat.mul_succ, Nat.add_comm (k * j) k, ← Nat.add_assoc]
      exact hrest

theorem Holds.drop_take {buf : ByteArray} {off : Nat} {bs : List UInt8} (h : Holds buf off bs) :
    (buf.data.toList.drop off).take bs.length = bs := by
  apply List.ext_getElem?
  intro i
  by_cases hi : i < bs.length
  · rw [List.getElem?_take_of_lt hi, List.getElem?_drop, h.get i hi]
  · rw [List.getElem?_eq_none (by simp; omega), List.getElem?_eq_none (by omega)]

end Buffer

namespace Segment

open Buffer

theorem slice?_of_holds {data : ByteArray} {p : Nat} {bs : List UInt8} (h : Holds data p bs) :
    slice? data p bs.length = some ⟨bs.toArray⟩ := by
  unfold slice?
  rw [if_pos h.bound, Option.some.injEq]
  apply ByteArray.ext
  apply Array.ext'
  simp only [ByteArray.data_extract, Array.toList_extract, List.extract_eq_take_drop,
    Nat.add_sub_cancel_left]
  exact h.drop_take

theorem bytesAt_of_holds {data : ByteArray} {p : Nat} {bs : List UInt8} (h : Holds data p bs) :
    bytesAt data p bs.length = .ok bs := by
  simp [bytesAt, slice?_of_holds h]

theorem wordAt_of_holds {data : ByteArray} {o : ByteOrder} {p : Nat} {bs : List UInt8}
    (h : Holds data p bs) : wordAt data o p bs.length = .ok (o.decode bs) := by
  simp [wordAt, bytesAt_of_holds h, pure, Except.pure]

end Segment

end TiffLayout
