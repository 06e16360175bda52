import TiffLayout.Proofs.TableRead
import TiffLayout.Proofs.Patch
/-! What an item leaves in the buffer when its output does not fail. An entry table leaves its
count, then each entry's tag, type and count with the four slot bytes, then the next-directory
offset; the slot of an out-of-line value is the offset of the value's item. -/
namespace TiffLayout

namespace Emission

theorem ofPieces_append {ps qs : List (Except LayoutError (List UInt8))} (h : (ofPieces ps).stop = none) :
    ofPieces (ps ++ qs) = ⟨(ofPieces ps).bytes ++ (ofPieces qs).bytes, (ofPieces qs).stop⟩ := by
  induction ps with
  | nil => rfl
  | cons r ps ih =>
    cases r with
    | ok b =>
      have h' : (ofPieces ps).stop = none := h
      show (⟨b ++ (ofPieces (ps ++ qs)).bytes, (ofPieces (ps ++ qs)).stop⟩ : Emission) = _
      rw [ih h']
      simp [ofPieces]
    | error e => simp [ofPieces] at h

theorem stop_append {ps qs : List (Except LayoutError (List UInt8))}
    (h : (ofPieces (ps ++ qs)).stop = none) : (ofPieces ps).stop = none ∧ (ofPieces qs).stop = none := by
  induction ps with
  | nil => exact ⟨rfl, h⟩
  | cons r ps ih =>
    cases r with
    | ok b =>
      simp only [List.cons_append, ofPieces] at h ⊢
      exact ih h
    | error e => simp [ofPieces] at h

theorem eq_ok_of_stop {r : Except LayoutError (List UInt8)} (h : (ofPieces [r]).stop = none) :
    r = .ok (ofPieces [r]).bytes := by
  cases r with
  | ok b => simp [ofPieces]
  | error e => simp [ofPieces] at h

theorem ofPieces_flatMap {α : Type} {g : α → List (Except LayoutError (List UInt8))} :
    ∀ {l : List α}, (∀ a ∈ l, (ofPieces (g a)).stop = none) →
      ofPieces (l.flatMap g) = ⟨l.flatMap fun a => (ofPieces (g a)).bytes, none⟩
  | [], _ => rfl
  | a :: l, h => by
    rw [List.flatMap_cons, ofPieces_append (h a List.mem_cons_self),
      ofPieces_flatMap fun b hb => h b (List.mem_cons_of_mem a hb)]
    simp

theorem stop_flatMap {α : Type} {g : α → List (Except LayoutError (List UInt8))} :
    ∀ {l : List α}, (ofPieces (l.flatMap g)).stop = none → ∀ a ∈ l, (ofPieces (g a)).stop = none
  | [], _ => by simp
  | a :: l, h => by
    rw [List.flatMap_cons] at h
    obtain ⟨ha, hl⟩ := stop_append h
    intro b hb
    rcases List.mem_cons.1 hb with rfl | hb
    · exact ha
    · exact stop_flatMap hl b hb

end Emission

namespace Field

theorem take_slot {f : Field} (h : f.bytes.size ≤ 4) : f.slot.take f.bytes.size = f.bytes.data.toList := by
  have hlen : f.bytes.data.toList.length = f.bytes.size := Array.length_toList
  have htake : f.bytes.data.toList.take 4 = f.bytes.data.toList := List.take_of_length_le (by omega)
  simp only [slot, htake]
  rw [List.take_append_of_le_length (by omega), List.take_of_length_le (by omega)]

end Field

namespace Plan

open Buffer Segment Emission

theorem slotPiece_length {p : Plan} {i j : Nat} {f : Field} {s : List UInt8}
    (h : p.slotPiece i j f = .ok s) : s.length = 4 := by
  unfold slotPiece at h
  split at h
  · split at h
    · obtain ⟨off, -, hb⟩ := bind_eq_ok.1 h
      rw [(offsetBytes_eq_ok hb).2, ByteOrder.length_encode]
    · cases h
  · rw [← Except.ok.inj h, Field.length_slot]

/-- A table whose output does not fail leaves its count, each entry with the bytes of its slot,
and the next-directory offset. -/
theorem tablePieces_holds {p : Plan} {i : Nat} {x : Directory} {buf : ByteArray} {t : Nat}
    {bs : List UInt8} (h : ofPieces (p.tablePieces i x) = ⟨bs, none⟩) (hbs : Holds buf t bs) :
    x.fields.length < Width.bits16.bound ∧
    Holds buf t (p.byteOrder.encode 2 x.fields.length) ∧
    (∀ j f, x.fields[j]? = some f → ∃ s, p.slotPiece i j f = .ok s ∧
      Holds buf (t + 2 + entrySize * j) (entryBytes p.byteOrder f.tag f.type f.count s)) ∧
    ∃ nb, p.nextPiece i = .ok nb ∧ Holds buf (t + 2 + entrySize * x.fields.length) nb := by
  set o := p.byteOrder
  set count := (checked (Width.bits16.narrow x.fields.length)).map (o.encode 2)
  set entry : Field × Nat → List (Except LayoutError (List UInt8)) := fun a =>
    [.ok (o.encode 2 a.1.tag.code.toNat ++ o.encode 2 a.1.type.code.toNat ++ o.encode 4 a.1.count),
      p.slotPiece i a.2 a.1]
  have hshape : p.tablePieces i x = [count] ++ x.fields.zipIdx.flatMap entry ++ [p.nextPiece i] := rfl
  rw [hshape] at h
  have hstop : (ofPieces ([count] ++ x.fields.zipIdx.flatMap entry ++ [p.nextPiece i])).stop = none := by
    rw [h]
  obtain ⟨hstop₁, hnextStop⟩ := stop_append hstop
  obtain ⟨hcountStop, hentriesStop⟩ := stop_append hstop₁
  have hblock : ∀ a ∈ x.fields.zipIdx, (ofPieces (entry a)).stop = none ∧
      ∃ s, p.slotPiece i a.2 a.1 = .ok s ∧
        (ofPieces (entry a)).bytes = entryBytes o a.1.tag a.1.type a.1.count s := by
    intro a ha
    have hst := stop_flatMap hentriesStop a ha
    have hslot : (ofPieces [p.slotPiece i a.2 a.1]).stop = none := by
      simpa [entry, ofPieces] using hst
    refine ⟨hst, _, eq_ok_of_stop hslot, ?_⟩
    rw [eq_ok_of_stop hslot]
    simp [entry, ofPieces, entryBytes]
  have hcount := eq_ok_of_stop hcountStop
  obtain ⟨hn, hcb⟩ : x.fields.length < Width.bits16.bound ∧
      (ofPieces [count]).bytes = o.encode 2 x.fields.length := by
    cases hw : checked (Width.bits16.narrow x.fields.length) with
    | error e => simp [count, hw, Except.map] at hcount
    | ok w =>
      obtain ⟨hlt, rfl⟩ := Width.narrow_ok_iff.1 (checked_eq_ok.1 hw)
      have hok : count = .ok (o.encode 2 x.fields.length) := by simp [count, hw, Except.map]
      refine ⟨hlt, ?_⟩
      rw [hok]
      simp [ofPieces]
  rw [ofPieces_append hstop₁, ofPieces_append hcountStop,
    ofPieces_flatMap fun a ha => (hblock a ha).1] at h
  have hbytes := congrArg Emission.bytes h
  simp only at hbytes
  rw [← hbytes, hcb] at hbs
  obtain ⟨h₁, hnext⟩ := holds_append.1 hbs
  obtain ⟨hcountHolds, hentries⟩ := holds_append.1 h₁
  have hlen : ∀ a ∈ x.fields.zipIdx, (ofPieces (entry a)).bytes.length = entrySize := by
    intro a ha
    obtain ⟨-, s, hs, he⟩ := hblock a ha
    rw [he, length_entryBytes (slotPiece_length hs)]
  refine ⟨hn, hcountHolds, fun j f hf => ?_, ?_⟩
  · have hj : j < x.fields.zipIdx.length := by
      simpa using (List.getElem?_eq_some_iff.1 hf).1
    have hmem : (f, j) ∈ x.fields.zipIdx := List.mk_mem_zipIdx_iff_getElem?.2 hf
    obtain ⟨-, s, hs, he⟩ := hblock (f, j) hmem
    refine ⟨s, hs, ?_⟩
    have hblockHolds := holds_flatMap hlen hentries j hj
    have hat : x.fields.zipIdx[j] = (f, j) := by
      rw [List.getElem_zipIdx]
      simp [(List.getElem?_eq_some_iff.1 hf).2]
    rw [hat, he, ByteOrder.length_encode] at hblockHolds
    exact hblockHolds
  · refine ⟨_, eq_ok_of_stop hnextStop, ?_⟩
    have hflat : (x.fields.zipIdx.flatMap fun a => (ofPieces (entry a)).bytes).length =
        entrySize * x.fields.length := by
      rw [List.length_flatMap, List.map_congr_left hlen]
      simp [Nat.mul_comm]
    rw [List.length_append, ByteOrder.length_encode, hflat, ← Nat.add_assoc] at hnext
    exact hnext

theorem nextPiece_eq_ok {p : Plan} {i : Nat} {nb : List UInt8} (h : p.nextPiece i = .ok nb) :
    ∃ m, m < Width.bits32.bound ∧ nb = p.byteOrder.encode 4 m := by
  unfold nextPiece at h
  split at h
  · obtain ⟨off, -, hb⟩ := bind_eq_ok.1 h
    exact ⟨off, offsetBytes_eq_ok hb⟩
  · exact ⟨0, by simp [Width.bound], (Except.ok.inj h).symm⟩

theorem itemOffset_eq_ok {p : Plan} {id v : Nat} :
    p.itemOffset id = .ok v ↔ ∃ it, p.items[id]? = some it ∧ it.offset = some v := by
  unfold itemOffset
  cases hit : p.items[id]? with
  | none => simp
  | some it => cases ho : it.offset <;> simp [Item.offset?, ho]

theorem findIdx?_part {p : Plan} {P : Part} {id : Nat}
    (h : p.items.findIdx? (·.part = P) = some id) : ∃ it, p.items[id]? = some it ∧ it.part = P := by
  obtain ⟨hid, hP, -⟩ := List.findIdx?_eq_some_iff_getElem.1 h
  exact ⟨_, List.getElem?_eq_getElem hid, by simpa using hP⟩

theorem dirOffset_eq_ok {p : Plan} {i t : Nat} (h : p.dirOffset i = .ok t) :
    ∃ (id : Nat) (it : Item), p.items[id]? = some it ∧ it.part = .table i ∧ it.offset = some t := by
  unfold dirOffset at h
  split at h
  · rename_i id hid
    obtain ⟨it, hit, hpart⟩ := findIdx?_part hid
    obtain ⟨it', hit', hoff⟩ := itemOffset_eq_ok.1 h
    rw [hit, Option.some.injEq] at hit'
    subst hit'
    exact ⟨id, it, hit, hpart, hoff⟩
  · cases h

/-- The output of every item of the plan stands at its offset, after the header. -/
def Written (p : Plan) (d : Draft) (buf : ByteArray) : Prop :=
  ∀ it ∈ p.items, ∃ off bs, it.offset = some off ∧ headerSize ≤ off ∧
    ofPieces (p.pieces it d) = ⟨bs, none⟩ ∧ Holds buf off bs

/-- The entry that field `j` of directory `i` reads back as: the field's tag, type, count and
bytes, with the value in the slot, or out of line at the offset of the value's item. -/
structure ReadsAs (p : Plan) (i j : Nat) (f : Field) (e : Entry) : Prop where
  tag : e.tag = f.tag
  type : e.type = f.type
  count : e.count = f.count
  value : e.value = f.bytes
  inline : f.outOfLine = false → e.slot = .inline f.slot
  outOfLine : f.outOfLine = true → ∃ id v, p.valueItem? i j = some id ∧ p.itemOffset id = .ok v ∧
    e.slot = .outOfLine v

/-- The entries read back from the table of directory `i`, written as `x`: one for each field,
each as `ReadsAs` says. -/
structure EntriesOf (p : Plan) (i : Nat) (x : Directory) (entries : List Entry) : Prop where
  length : entries.length = x.fields.length
  reads : ∀ j f e, x.fields[j]? = some f → entries[j]? = some e → p.ReadsAs i j f e

section Written

variable {p : Plan} {d : Draft} {buf : ByteArray} {i : Nat} {x : Directory}

theorem Written.item (hw : p.Written d buf) {id v : Nat} (hv : p.itemOffset id = .ok v) :
    ∃ it bs, p.items[id]? = some it ∧ headerSize ≤ v ∧ ofPieces (p.pieces it d) = ⟨bs, none⟩ ∧
      Holds buf v bs := by
  obtain ⟨it, hit, hoff⟩ := itemOffset_eq_ok.1 hv
  obtain ⟨off, bs, hoff', hheader, hbs, hholds⟩ := hw it (List.mem_of_getElem? hit)
  rw [hoff, Option.some.injEq] at hoff'
  subst hoff'
  exact ⟨it, bs, hit, hheader, hbs, hholds⟩

theorem Written.table (hw : p.Written d buf) (hx : d.dirs[i]? = some x) {t : Nat}
    (ht : p.dirOffset i = .ok t) :
    headerSize ≤ t ∧ ∃ bs, ofPieces (p.tablePieces i x) = ⟨bs, none⟩ ∧ Holds buf t bs := by
  unfold dirOffset at ht
  split at ht
  · rename_i id hid
    obtain ⟨it, bs, hit, hheader, hbs, hholds⟩ := hw.item ht
    obtain ⟨it', hit', hpart⟩ := findIdx?_part hid
    rw [hit, Option.some.injEq] at hit'
    subst hit'
    have hpieces : p.pieces it d = p.tablePieces i x := by simp [pieces, hpart, hx]
    exact ⟨hheader, bs, hpieces ▸ hbs, hholds⟩
  · cases ht

/-- An entry table stands after the header and starts inside the buffer. -/
theorem Written.table_inside (hw : p.Written d buf) (hx : d.dirs[i]? = some x) {t : Nat}
    (ht : p.dirOffset i = .ok t) : headerSize ≤ t ∧ t < buf.size := by
  obtain ⟨hheader, bs, hbs, hholds⟩ := hw.table hx ht
  have hcount := (tablePieces_holds hbs hholds).2.1.bound
  rw [ByteOrder.length_encode] at hcount
  exact ⟨hheader, by omega⟩

/-- The item of a value holds the field's bytes. -/
theorem Written.value (hw : p.Written d buf) (hx : d.dirs[i]? = some x) {j id v : Nat} {f : Field}
    (hf : x.fields[j]? = some f) (hid : p.valueItem? i j = some id) (hv : p.itemOffset id = .ok v) :
    headerSize ≤ v ∧ Holds buf v f.bytes.data.toList := by
  obtain ⟨it, bs, hit, hheader, hbs, hholds⟩ := hw.item hv
  obtain ⟨it', hit', hpart⟩ := findIdx?_part hid
  rw [hit, Option.some.injEq] at hit'
  subst hit'
  have hpieces : p.pieces it d = [.ok f.bytes.data.toList] := by simp [pieces, hpart, hx, hf]
  rw [hpieces] at hbs
  simp only [ofPieces, List.append_nil, Emission.mk.injEq, and_true] at hbs
  exact ⟨hheader, hbs ▸ hholds⟩

/-- The item of a thumbnail holds its bytes. -/
theorem Written.thumbnail (hw : p.Written d buf) (hx : d.dirs[i]? = some x) {th : ByteArray}
    (hth : x.thumbnail = some th) {id v : Nat} {it : Item} (hit : p.items[id]? = some it)
    (hpart : it.part = .thumbnail i) (hv : p.itemOffset id = .ok v) :
    headerSize ≤ v ∧ Holds buf v th.data.toList := by
  obtain ⟨it', bs, hit', hheader, hbs, hholds⟩ := hw.item hv
  rw [hit, Option.some.injEq] at hit'
  subst hit'
  have hpieces : p.pieces it d = [.ok th.data.toList] := by simp [pieces, hpart, hx, hth]
  rw [hpieces] at hbs
  simp only [ofPieces, List.append_nil, Emission.mk.injEq, and_true] at hbs
  exact ⟨hheader, hbs ▸ hholds⟩

/-- A written table and the values it refers to lie below the end of the buffer. -/
theorem Written.below (hw : p.Written d buf) (hx : d.dirs[i]? = some x) {t : Nat}
    (ht : p.dirOffset i = .ok t) :
    t + Ifd.tableLength x.fields.length ≤ buf.size ∧
    ∀ j f id v, x.fields[j]? = some f → p.valueItem? i j = some id → p.itemOffset id = .ok v →
      v + f.bytes.size ≤ buf.size := by
  obtain ⟨-, bs, hbs, hholds⟩ := hw.table hx ht
  obtain ⟨-, -, -, nb, hnb, hnext⟩ := tablePieces_holds hbs hholds
  obtain ⟨m, -, rfl⟩ := nextPiece_eq_ok hnb
  have hend := hnext.bound
  rw [ByteOrder.length_encode] at hend
  refine ⟨by simp only [Ifd.tableLength]; omega, fun j f id v hf hid hv => ?_⟩
  have hvalue := (hw.value hx hf hid hv).2.bound
  rwa [Array.length_toList] at hvalue

/-- A written entry reads back as its field, when the field's count and type give its length and
the entry and its value lie below 2^32. -/
theorem readEntry_written (hw : p.Written d buf) (hx : d.dirs[i]? = some x) {j q : Nat} {f : Field}
    {s : List UInt8} (hf : x.fields[j]? = some f) (hcons : f.count * f.type.size = f.bytes.size)
    (hs : p.slotPiece i j f = .ok s) (hq : Holds buf q (entryBytes p.byteOrder f.tag f.type f.count s))
    (hq32 : q < Width.bits32.bound)
    (hvalue : ∀ id v, p.valueItem? i j = some id → p.itemOffset id = .ok v →
      v + f.bytes.size ≤ Width.bits32.bound) :
    ∃ e, readEntry buf p.byteOrder q = .ok e ∧ p.ReadsAs i j f e := by
  have hbytes : (⟨f.bytes.data.toList.toArray⟩ : ByteArray) = f.bytes := by simp
  cases hout : f.outOfLine
  · have hsmall : f.bytes.size ≤ 4 := by simpa [Field.outOfLine] using hout
    unfold slotPiece at hs
    rw [hout, if_neg Bool.false_ne_true, Except.ok.injEq] at hs
    subst hs
    refine ⟨_, readEntry_inline hq f.length_slot hq32 (hcons ▸ hsmall), ?_⟩
    refine ⟨rfl, rfl, rfl, ?_, fun _ => rfl, fun h => absurd (hout.symm.trans h) Bool.false_ne_true⟩
    show (⟨(f.slot.take (f.count * f.type.size)).toArray⟩ : ByteArray) = f.bytes
    rw [hcons, Field.take_slot hsmall, hbytes]
  · have hlarge : 4 < f.bytes.size := by simpa [Field.outOfLine] using hout
    unfold slotPiece at hs
    rw [hout, if_pos rfl] at hs
    split at hs
    · rename_i id hid
      obtain ⟨v, hv, hb⟩ := bind_eq_ok.1 hs
      obtain ⟨hv32, rfl⟩ := offsetBytes_eq_ok hb
      obtain ⟨hheader, hholds⟩ := hw.value hx hf hid hv
      have hlen : f.bytes.data.toList.length = f.bytes.size := Array.length_toList
      have hvlen : f.bytes.data.toList.length < Width.bits32.bound := by
        have := hvalue id v hid hv
        simp only [headerSize] at hheader
        omega
      refine ⟨_, readEntry_outOfLine hq hholds hq32 (hlen.trans hcons.symm) (hcons ▸ hlarge) hvlen
        hv32 hheader, ?_⟩
      exact ⟨rfl, rfl, rfl, hbytes, fun h => absurd (hout.symm.trans h) (by decide), fun _ => ⟨id, v, hid, hv, rfl⟩⟩
    · cases hs

/-- A written entry table that lies below 2^32 with its values reads back: its entries are its
fields, each as `ReadsAs` says, and its next-directory offset is the one written. -/
theorem readIfd_written (hw : p.Written d buf) (hx : d.dirs[i]? = some x)
    (hcons : ∀ f ∈ x.fields, f.count * f.type.size = f.bytes.size) {t : Nat}
    (ht : p.dirOffset i = .ok t) (hend : t + Ifd.tableLength x.fields.length ≤ Width.bits32.bound)
    (hvalues : ∀ j f id v, x.fields[j]? = some f → p.valueItem? i j = some id →
      p.itemOffset id = .ok v → v + f.bytes.size ≤ Width.bits32.bound) (k : DirectoryKind) :
    ∃ entries next table, p.nextPiece i = .ok (p.byteOrder.encode 4 next) ∧
      next < Width.bits32.bound ∧ readIfd buf p.byteOrder k t =
        .ok ⟨k, t, entries, next, thumbnailOf buf p.byteOrder entries, table⟩ ∧
      p.EntriesOf i x entries := by
  obtain ⟨-, bs, hbs, hholds⟩ := hw.table hx ht
  obtain ⟨hn, hcount, hentries, nb, hnb, hnext⟩ := tablePieces_holds hbs hholds
  obtain ⟨next, hnext32, rfl⟩ := nextPiece_eq_ok hnb
  have hread : ∀ j (hj : j < x.fields.length), ∃ e,
      readEntry buf p.byteOrder (t + 2 + entrySize * j) = .ok e ∧ p.ReadsAs i j x.fields[j] e := by
    intro j hj
    obtain ⟨s, hs, hq⟩ := hentries j x.fields[j] (List.getElem?_eq_getElem hj)
    have hq32 : t + 2 + entrySize * j < Width.bits32.bound := by
      simp only [Ifd.tableLength, entrySize] at hend ⊢
      omega
    exact readEntry_written hw hx (List.getElem?_eq_getElem hj) (hcons _ (List.getElem_mem hj)) hs hq
      hq32 fun id v hid hv => hvalues j _ id v (List.getElem?_eq_getElem hj) hid hv
  obtain ⟨entries, hlen, hall⟩ : ∃ entries : List Entry, entries.length = x.fields.length ∧
      ∀ j (hj : j < x.fields.length) (he : j < entries.length),
        readEntry buf p.byteOrder (t + 2 + entrySize * j) = .ok entries[j] ∧
          p.ReadsAs i j x.fields[j] entries[j] := by
    choose e he hreads using hread
    exact ⟨List.ofFn fun j : Fin x.fields.length => e j j.2, List.length_ofFn,
      fun j hj _ => by simpa using ⟨he j hj, hreads j hj⟩⟩
  obtain ⟨table, -, hreadIfd⟩ := @readIfd_of_holds buf p.byteOrder k t next entries
    (hlen ▸ hcount) (hlen ▸ hn) (fun j hj => (hall j (hlen ▸ hj) hj).1) (hlen ▸ hnext) hnext32
  refine ⟨entries, next, table, hnb, hnext32, hreadIfd, hlen, fun j f e hf he => ?_⟩
  obtain ⟨hj, rfl⟩ := List.getElem?_eq_some_iff.1 hf
  obtain ⟨hj', rfl⟩ := List.getElem?_eq_some_iff.1 he
  exact (hall j hj hj').2

end Written

end Plan

end TiffLayout
