import TiffLayout.Proofs.Acceptance
import TiffLayout.Proofs.Analysis
/-! What each directory of a read segment is made of, byte for byte: its table, its entries, their
values in the slot or at the offset it holds, and its thumbnail, all inside the data. -/
namespace TiffLayout

/-- The ranges of a directory with the bytes read from them: its table, its values stored out
of line and its thumbnail. -/
def Ifd.spans (x : Ifd) : List (Nat × ByteArray) :=
  (x.offset, x.table) :: x.entries.filterMap (fun e => e.offset?.map fun p => (p, e.value)) ++
    (x.thumbnail.map fun t => (t.offset, t.bytes)).toList

open Segment Buffer

/-- An entry as the twelve bytes at its position give it: tag, type and count, a value of
`count` times the size of the type, and a slot that holds a value of up to four bytes as its
first bytes and the offset of a longer one. -/
structure Entry.ReadFrom (data : ByteArray) (o : ByteOrder) (e : Entry) : Prop where
  bound : e.position + entrySize ≤ data.size
  tag : e.tag = tagAt data o e.position
  type : e.type = typeAt data o e.position
  count : e.count = countAt data o e.position
  length : e.value.size = e.count * e.type.size
  slot : e.slot = if e.value.size ≤ 4 then .inline (bytesFrom data (e.position + 8) 4)
    else .outOfLine (offsetAt data o e.position)
  inline : e.value.size ≤ 4 →
    e.value.data.toList = (bytesFrom data (e.position + 8) 4).take e.value.size

/-- A directory as the table at its offset gives it: `n` entries, the count the table starts
with, entry `i` at `2 + 12 * i` bytes into the table, a table of `2 + 12 * n + 4` bytes, and
ranges that are not empty, lie after the header and hold the data's bytes. -/
structure Ifd.ReadFrom (data : ByteArray) (o : ByteOrder) (x : Ifd) : Prop where
  count : x.entries.length = wordFrom data o x.offset 2
  table : x.table.size = Ifd.tableLength x.entries.length
  position : ∀ i (h : i < x.entries.length), x.entries[i].position = x.offset + 2 + entrySize * i
  entries : ∀ e ∈ x.entries, e.ReadFrom data o
  spans : ∀ r ∈ x.spans, headerSize ≤ r.1 ∧ 0 < r.2.size ∧ Holds data r.1 r.2.data.toList

namespace Segment

variable {data : ByteArray} {o : ByteOrder}

/-- What reading an entry gives: the entry at its position, as its bytes give it. -/
theorem readEntry_readFrom {p : Nat} {e : Entry} (h : readEntry data o p = .ok e) :
    e.position = p ∧ e.ReadFrom data o := by
  obtain ⟨position, hposition, h⟩ := bind_eq_ok.1 h
  obtain ⟨raw, hraw, h⟩ := bind_eq_ok.1 h
  obtain ⟨length, hlength, h⟩ := bind_eq_ok.1 h
  obtain ⟨-, hposition⟩ := Width.narrow_ok_iff.1 (mapError_eq_ok.1 hposition)
  subst position
  obtain ⟨-, rfl⟩ := Width.mul_ok_iff.1 (mapError_eq_ok.1 hlength)
  have hfits : p + entrySize ≤ data.size := by
    by_contra hout
    rw [bytesAt_eq, if_neg hout] at hraw
    cases hraw
  rw [bytesAt_eq, if_pos hfits] at hraw
  obtain rfl := (Except.ok.inj hraw).symm
  obtain ⟨htag, htype, hcount, hslot⟩ := bytesFrom_entry data p
  simp only [entrySize] at htag htype hcount hslot h
  simp only [htag, htype, hcount, hslot] at h
  split at h
  · rename_i hsmall
    cases h
    have hsize : (bytesFrom data (p + 8) 4).length = 4 := by
      simp only [entrySize] at hfits
      simp [bytesFrom]
      omega
    have hvalue : (⟨((bytesFrom data (p + 8) 4).take (countAt data o p * (typeAt data o p).size)).toArray⟩
        : ByteArray).size = countAt data o p * (typeAt data o p).size := by
      simp only [ByteArray.size, List.size_toArray, List.length_take, hsize]
      simp only [countAt, typeAt, wordFrom]
      omega
    refine ⟨rfl, hfits, rfl, rfl, rfl, hvalue, ?_, fun _ => ?_⟩
    all_goals simp only [countAt, typeAt, wordFrom] at hvalue ⊢
    · rw [hvalue, if_pos hsmall]
    · rw [hvalue]
  · rename_i hlarge
    split at h
    · rename_i value hslice
      split at h
      · cases h
        have hvalue := (slice?_eq_some hslice).2
        refine ⟨rfl, hfits, rfl, rfl, rfl, hvalue, ?_, fun hle => ?_⟩
        · dsimp only
          rw [hvalue, if_neg hlarge]
          rfl
        · dsimp only at hle
          rw [hvalue] at hle
          exact absurd hle hlarge
      · cases h
    · cases h

/-- What reading a table gives, with the entry count and the next-directory offset read as words
of the data. -/
theorem readIfd_eq_ok_wordFrom {kind : DirectoryKind} {offset : Nat} {x : Ifd}
    (h : readIfd data o kind offset = .ok x) :
    ∃ entries table,
      (List.range (wordFrom data o offset 2)).mapM
        (fun i => readEntry data o (offset + 2 + entrySize * i)) = .ok entries ∧
      slice? data offset (Ifd.tableLength (wordFrom data o offset 2)) = some table ∧
      x = ⟨kind, offset, entries, wordFrom data o (offset + 2 + entrySize * entries.length) 4,
        thumbnailOf data o entries, table⟩ := by
  obtain ⟨n, entries, next, table, hn, hentries, hnext, htable, rfl⟩ := readIfd_eq_ok h
  have hcount : offset + 2 ≤ data.size := by
    by_contra hout
    rw [wordAt_eq, if_neg hout] at hn
    cases hn
  rw [wordAt_eq, if_pos hcount] at hn
  obtain rfl := (Except.ok.inj hn).symm
  have hlen : entries.length = wordFrom data o offset 2 := by
    simpa using (mapM_eq_ok.1 hentries).length_eq.symm
  rw [wordAt_eq] at hnext
  split at hnext
  · obtain rfl := (Except.ok.inj hnext).symm
    exact ⟨entries, table, hentries, htable, by rw [hlen]⟩
  · cases hnext

/-- A thumbnail holds the data's bytes at its offset. -/
theorem thumbnailOf_holds {entries : List Entry} {t : Thumbnail}
    (h : thumbnailOf data o entries = some t) : Holds data t.offset t.bytes.data.toList := by
  simp only [thumbnailOf, Option.bind_eq_bind, Option.bind_eq_some_iff] at h
  obtain ⟨offset, -, length, -, h⟩ := h
  split at h
  · cases h
  · split at h
    · obtain ⟨bytes, hslice, rfl⟩ := Option.map_eq_some_iff.1 h
      exact holds_of_slice? hslice
    · cases h

/-- A directory read at an offset after the header is what its table gives. -/
theorem readIfd_readFrom {kind : DirectoryKind} {offset : Nat} {x : Ifd}
    (h : readIfd data o kind offset = .ok x) (hoffset : headerSize ≤ offset) : x.ReadFrom data o := by
  have hvalues := readIfd_values h
  obtain ⟨entries, table, hentries, htable, rfl⟩ := readIfd_eq_ok_wordFrom h
  have hall := mapM_eq_ok.1 hentries
  have hlen : entries.length = wordFrom data o offset 2 := by simpa using hall.length_eq.symm
  have hread : ∀ i (hi : i < entries.length),
      readEntry data o (offset + 2 + entrySize * i) = .ok entries[i] := by
    intro i hi
    have := hall.get (by simpa [hlen] using hi) hi
    simpa using this
  have hsize := (slice?_eq_some htable).2
  refine ⟨hlen, by rw [hsize, hlen], fun i hi => (readEntry_readFrom (hread i hi)).1,
    fun e he => ?_, fun r hr => ?_⟩
  · obtain ⟨i, hi, rfl⟩ := List.getElem_of_mem he
    exact (readEntry_readFrom (hread i hi)).2
  · simp only [Ifd.spans, List.mem_cons, List.mem_append, List.mem_filterMap,
      Option.mem_toList, Option.map_eq_some_iff] at hr
    rcases hr with (rfl | ⟨e, he, p, hp, rfl⟩) | ⟨t, ht, rfl⟩
    · refine ⟨hoffset, ?_, holds_of_slice? htable⟩
      simp only [hsize, Ifd.tableLength]
      omega
    · have hq : e.slot = .outOfLine p := by
        simp only [Entry.offset?] at hp
        split at hp <;> simp_all
      obtain ⟨hheader, hlong, hholds⟩ := hvalues e he p hq
      exact ⟨hheader, show 0 < e.value.size by omega, hholds⟩
    · have hext := thumbnailOf_inside ht
      exact ⟨hext.header, hext.pos, thumbnailOf_holds ht⟩

end Segment

end TiffLayout
