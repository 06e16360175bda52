import TiffLayout.Proofs.Bytes
/-! Reading an entry table whose bytes stand in the data. The count, each entry and the next
offset read back as they were written; a value of more than four bytes is read at the offset
in its slot, and one of at most four bytes is the start of the slot. -/
namespace TiffLayout

namespace Segment

open Buffer

/-- The twelve bytes of an entry: tag, type and count, then the four bytes of its slot. -/
def entryBytes (o : ByteOrder) (tag : Tag) (type : FieldType) (count : Nat) (slot : List UInt8) :
    List UInt8 :=
  o.encode 2 tag.code.toNat ++ o.encode 2 type.code.toNat ++ o.encode 4 count ++ slot

section Entry

variable {o : ByteOrder} {tag : Tag} {type : FieldType} {count : Nat} {slot : List UInt8}

@[simp] theorem length_entryBytes (hslot : slot.length = 4) :
    (entryBytes o tag type count slot).length = entrySize := by
  simp [entryBytes, hslot, entrySize]

theorem entryBytes_tag : (entryBytes o tag type count slot).take 2 = o.encode 2 tag.code.toNat := by
  simp [entryBytes]

theorem entryBytes_type :
    ((entryBytes o tag type count slot).drop 2).take 2 = o.encode 2 type.code.toNat := by
  simp [entryBytes]

theorem entryBytes_count : ((entryBytes o tag type count slot).drop 4).take 4 = o.encode 4 count := by
  simp [entryBytes, List.drop_append, List.take_append]

theorem entryBytes_slot : (entryBytes o tag type count slot).drop 8 = slot := by
  simp [entryBytes, List.drop_append, List.drop_eq_nil_of_le]

variable {data : ByteArray} {p : Nat}

theorem bytesAt_entry (h : Holds data p (entryBytes o tag type count slot)) (hslot : slot.length = 4) :
    bytesAt data p entrySize = .ok (entryBytes o tag type count slot) := by
  rw [← length_entryBytes hslot]
  exact bytesAt_of_holds h

theorem decode_tag : o.decode (o.encode 2 tag.code.toNat) = tag.code.toNat :=
  o.decode_encode_of_lt (by simpa using tag.code.toNat_lt)

theorem decode_type : o.decode (o.encode 2 type.code.toNat) = type.code.toNat :=
  o.decode_encode_of_lt (by simpa using type.code.toNat_lt)

/-- A count whose values have a 32-bit length fits the four bytes of the count field. -/
theorem count_lt_capacity (h : count * type.size < Width.bits32.bound) :
    count < ByteOrder.capacity 4 := by
  have := Nat.le_mul_of_pos_right count type.size_pos
  simp only [ByteOrder.capacity_four]
  simp only [Width.bound] at h
  omega

/-- An entry whose value takes at most four bytes reads back with the value at the start of its
slot. -/
theorem readEntry_inline (h : Holds data p (entryBytes o tag type count slot)) (hslot : slot.length = 4)
    (hp : p < Width.bits32.bound) (hsmall : count * type.size ≤ 4) :
    readEntry data o p =
      .ok ⟨tag, type, count, p, .inline slot, ⟨(slot.take (count * type.size)).toArray⟩⟩ := by
  have hlen : count * type.size < Width.bits32.bound := by
    simp only [Width.bound]
    omega
  have hcount := count_lt_capacity hlen
  have htag : (⟨tag.code⟩ : Tag) = tag := rfl
  have htype : (⟨type.code⟩ : FieldType) = type := rfl
  unfold readEntry
  simp [Except.mapError, Width.narrow, hp, bytesAt_entry h hslot, entryBytes_tag, entryBytes_type,
    entryBytes_count, entryBytes_slot, decode_tag, decode_type, o.decode_encode_of_lt hcount,
    Width.mul, hlen, htag, htype, hsmall, pure, Except.pure]

/-- An entry whose value takes more than four bytes reads back with the value at the offset in
its slot, when the value stands there after the header. -/
theorem readEntry_outOfLine {v : Nat} {value : List UInt8}
    (h : Holds data p (entryBytes o tag type count (o.encode 4 v))) (hv : Holds data v value)
    (hp : p < Width.bits32.bound) (hlength : value.length = count * type.size)
    (hlarge : 4 < count * type.size) (hvlen : value.length < Width.bits32.bound)
    (hv32 : v < Width.bits32.bound) (hheader : headerSize ≤ v) :
    readEntry data o p = .ok ⟨tag, type, count, p, .outOfLine v, ⟨value.toArray⟩⟩ := by
  have hlen : count * type.size < Width.bits32.bound := hlength ▸ hvlen
  have hcount := count_lt_capacity hlen
  have hslice : slice? data v (count * type.size) = some ⟨value.toArray⟩ := hlength ▸ slice?_of_holds hv
  have hoffset : o.decode (o.encode 4 v) = v := o.decode_encode_of_lt hv32
  have hsmall : ¬count * type.size ≤ 4 := by omega
  have htag : (⟨tag.code⟩ : Tag) = tag := rfl
  have htype : (⟨type.code⟩ : FieldType) = type := rfl
  unfold readEntry
  simp [Except.mapError, Width.narrow, hp, bytesAt_entry h (ByteOrder.length_encode o 4 v), entryBytes_tag,
    entryBytes_type, entryBytes_count, entryBytes_slot, decode_tag, decode_type,
    o.decode_encode_of_lt hcount, Width.mul, hlen, htag, htype, hsmall, hoffset, hslice, hheader,
    pure, Except.pure]

end Entry

theorem ofMarker?_marker (o : ByteOrder) :
    ByteOrder.ofMarker? (o.marker[0]?.getD 0) (o.marker[1]?.getD 0) = some o := by
  cases o <;> rfl

/-- A header whose marker, magic number and root offset stand in the data reads back. -/
theorem readHeader_of_holds {data : ByteArray} {o : ByteOrder} {r : Nat}
    (h : Holds data 0 (o.marker ++ o.encode 2 magic ++ o.encode 4 r)) (hr : r < Width.bits32.bound) :
    readHeader data = .ok (o, r) := by
  have hmarker : o.marker.length = 2 := by cases o <;> rfl
  obtain ⟨h₁, hroot⟩ := holds_append.1 h
  obtain ⟨hm, hmagic⟩ := holds_append.1 h₁
  have hm' := bytesAt_of_holds hm
  have hmagic' := wordAt_of_holds (o := o) hmagic
  have hroot' := wordAt_of_holds (o := o) hroot
  simp only [hmarker, ByteOrder.length_encode, List.length_append, Nat.zero_add,
    Nat.reduceAdd] at hm' hmagic' hroot'
  rw [o.decode_encode_of_lt (by simp [magic])] at hmagic'
  rw [o.decode_encode_of_lt (by simpa [Width.bound] using hr)] at hroot'
  simp [readHeader, hm', ofMarker?_marker, hmagic', hroot', pure, Except.pure]

theorem tableLength?_of_lt {n : Nat} (hn : n < Width.bits16.bound) :
    tableLength? n = .ok (Ifd.tableLength n) := by
  simp only [Width.bound] at hn
  have h₁ : Width.bits32.mul n entrySize = .ok (n * entrySize) :=
    Width.mul_ok_iff.2 ⟨by simp only [Width.bound, entrySize]; omega, rfl⟩
  have h₂ : Width.bits32.add (n * entrySize) 2 = .ok (n * entrySize + 2) :=
    Width.add_ok_iff.2 ⟨by simp only [Width.bound, entrySize]; omega, rfl⟩
  have h₃ : Width.bits32.add (n * entrySize + 2) 4 = .ok (n * entrySize + 2 + 4) :=
    Width.add_ok_iff.2 ⟨by simp only [Width.bound, entrySize]; omega, rfl⟩
  simp only [tableLength?, h₁, h₂, h₃, ok_bind, Ifd.tableLength]
  congr 1
  rw [Nat.mul_comm]
  omega

/-- A table whose count, entries and next offset stand in the data reads back with them. -/
theorem readIfd_of_holds {data : ByteArray} {o : ByteOrder} {kind : DirectoryKind} {t next : Nat}
    {entries : List Entry} (hcount : Holds data t (o.encode 2 entries.length))
    (hn : entries.length < Width.bits16.bound)
    (hentries : ∀ i (hi : i < entries.length), readEntry data o (t + 2 + entrySize * i) = .ok entries[i])
    (hnext : Holds data (t + 2 + entrySize * entries.length) (o.encode 4 next))
    (hnext32 : next < Width.bits32.bound) :
    ∃ table : ByteArray, table.size = Ifd.tableLength entries.length ∧
      readIfd data o kind t = .ok ⟨kind, t, entries, next, thumbnailOf data o entries, table⟩ := by
  have hword : wordAt data o t 2 = .ok entries.length := by
    have h := wordAt_of_holds (o := o) hcount
    rwa [ByteOrder.length_encode, o.decode_encode_of_lt (by simpa [Width.bound] using hn)] at h
  have hread : (List.range entries.length).mapM (fun i => readEntry data o (t + 2 + entrySize * i)) =
      .ok entries := by
    refine mapM_eq_ok.2 (List.forall₂_iff_get.2 ⟨List.length_range, fun i h₁ h₂ => ?_⟩)
    simpa using hentries i h₂
  have hnextWord : wordAt data o (t + 2 + entrySize * entries.length) 4 = .ok next := by
    have h := wordAt_of_holds (o := o) hnext
    rwa [ByteOrder.length_encode, o.decode_encode_of_lt (by simpa [Width.bound] using hnext32)] at h
  have hfits : t + Ifd.tableLength entries.length ≤ data.size := by
    have := hnext.bound
    simp only [ByteOrder.length_encode] at this
    simp only [Ifd.tableLength]
    omega
  refine ⟨data.extract t (t + Ifd.tableLength entries.length), ?_, ?_⟩
  · simp only [ByteArray.size_extract]
    omega
  · unfold readIfd
    simp [hword, hread, hnextWord, tableLength?_of_lt hn, Except.mapError, slice?, hfits, pure,
      Except.pure]

end Segment

end TiffLayout
