import TiffLayout.Proofs.Footprint
import TiffLayout.Proofs.Packing
import TiffLayout.Proofs.Editing
/-! Compact output and the reach of 32-bit offsets. A compact write succeeds when every table
counts its fields in sixteen bits and every item starts below 2^32, and its output reads back as
the normal form of the draft when 32-bit offsets reach all of it. Past 2^32 the output need not
read back: the reader takes the position of every entry as a 32-bit word, so a table whose first
entry starts at 2^32 is never read and the directory it holds is lost. -/
namespace TiffLayout

open Buffer Emission

namespace Compact

/-- Packing items not yet placed from an even offset succeeds while its end is a 64-bit offset. -/
theorem packFrom_ok : ∀ (start : Nat) (its : List Item), start % 2 = 0 →
    (∀ it ∈ its, it.offset = none) → start + paddedLength its < Width.bits64.bound →
    ∃ items, packFrom start its = .ok (items, start + paddedLength its)
  | start, [], _, _, _ => ⟨[], by simp [packFrom]⟩
  | start, it :: its, heven, hnone, hend => by
    rw [paddedLength_cons] at hend
    have hplace : it.place start = .ok { it with offset := some start } :=
      Item.place_ok_iff.2 ⟨hnone it List.mem_cons_self, heven, rfl⟩
    have hnext : checked (Width.bits64.add start it.length) = .ok (start + it.length) :=
      checked_eq_ok.2 (Width.add_ok_iff.2 ⟨by omega, rfl⟩)
    have hpad : checked (Width.bits64.add (start + it.length) (Width.paddingToEven it.length)) =
        .ok (start + it.length + it.length % 2) :=
      checked_eq_ok.2 (Width.add_ok_iff.2 ⟨by simp only [Width.paddingToEven]; omega, rfl⟩)
    obtain ⟨rest, hrest⟩ := packFrom_ok (start + it.length + it.length % 2) its (by omega)
      (fun it' h => hnone it' (List.mem_cons_of_mem _ h)) (by omega)
    refine ⟨{ it with offset := some start } :: rest, ?_⟩
    rw [packFrom, hplace, ok_bind, hnext, ok_bind, hpad, ok_bind, hrest, paddedLength_cons]
    simp only [Nat.add_assoc]
    rfl

/-- A packed item is its source placed at `start` plus the padded lengths of the items before
it. -/
theorem packed_getElem? {start stop : Nat} {its items : List Item}
    (hpack : packFrom start its = .ok (items, stop)) {k : Nat} {it : Item}
    (hit : items[k]? = some it) :
    ∃ it₀, its[k]? = some it₀ ∧ it = { it₀ with offset := some (start + paddedLength (its.take k)) } := by
  obtain ⟨-, hlengths, hat⟩ := packFrom_eq_ok hpack
  have hk : k < its.length := by
    have hlen := congrArg List.length hlengths
    simp only [List.length_map] at hlen
    exact hlen ▸ (List.getElem?_eq_some_iff.1 hit).1
  refine ⟨its[k], List.getElem?_eq_getElem hk, ?_⟩
  rw [hat k _ (List.getElem?_eq_getElem hk), Option.some.injEq] at hit
  exact hit.symm

/-- A packed item starts where the padded items before its source end, and ends within the padded
length of all of them. -/
theorem packed_mem {start stop : Nat} {its items : List Item}
    (hpack : packFrom start its = .ok (items, stop)) {it : Item} (hit : it ∈ items) :
    ∃ k it₀, its[k]? = some it₀ ∧ it.offset = some (start + paddedLength (its.take k)) ∧
      start + paddedLength (its.take k) + it.length ≤ start + paddedLength its := by
  obtain ⟨k, hk⟩ := List.mem_iff_getElem?.1 hit
  obtain ⟨it₀, hit₀, rfl⟩ := packed_getElem? hpack hk
  have hle := paddedLength_take_add_le hit₀
  exact ⟨k, it₀, hit₀, rfl, by dsimp only; omega⟩

end Compact

/-- The header is written into a buffer that has room for it when the root offset is a 32-bit
offset. -/
theorem writeHeader_ok (buf : ByteArray) (o : ByteOrder) {root : Nat}
    (hroot : root < Width.bits32.bound) (hsize : headerSize ≤ buf.size) :
    ∃ buf', writeHeader buf o root = .ok buf' := by
  have hpieces : ofPieces [.ok (o.marker ++ o.encode 2 magic), Plan.offsetBytes o root] =
      ⟨o.marker ++ o.encode 2 magic ++ o.encode 4 root, none⟩ := by
    simp [ofPieces, Plan.offsetBytes_ok hroot]
  have hfit : ¬(o.marker ++ o.encode 2 magic ++ o.encode 4 root ≠ [] ∧
      buf.size < 0 + (o.marker ++ o.encode 2 magic ++ o.encode 4 root).length) := by
    rw [length_header]
    omega
  unfold writeHeader emitAt
  simp only [hpieces, if_neg hfit]
  exact ⟨_, rfl⟩

namespace Plan

/-- Items that serialize without failure, each at an offset where the buffer has room for it, are
all written. -/
theorem writeItems_ok {p : Plan} {d : Draft} : ∀ (ids : List Nat) (buf : ByteArray),
    (∀ id ∈ ids, ∃ it o, p.items[id]? = some it ∧ it.offset = some o ∧
      (ofPieces (p.pieces it d)).stop = none ∧ (p.output it d).length = it.length ∧
      0 < it.length ∧ o + it.length ≤ buf.size) →
    ∃ B, p.writeItems d ids buf = .ok B
  | [], buf, _ => ⟨buf, rfl⟩
  | id :: ids, buf, h => by
    obtain ⟨it, o, hit, ho, hstop, hlen, hpos, hroom⟩ := h id List.mem_cons_self
    have hwrite : p.writeItem id d buf = (put buf o (p.output it d), .ok ()) := by
      simp only [writeItem, hit, ho]
      rw [emitAt_of_stop hstop (List.ne_nil_of_length_pos (by rw [← output, hlen]; exact hpos)),
        ← output, hlen, if_pos hroom]
    obtain ⟨B, hB⟩ := writeItems_ok ids (put buf o (p.output it d)) fun id' hid' => by
      obtain ⟨it', o', h₁, h₂, h₃, h₄, h₅, h₆⟩ := h id' (List.mem_cons_of_mem _ hid')
      exact ⟨it', o', h₁, h₂, h₃, h₄, h₅, by rw [size_put]; exact h₆⟩
    exact ⟨B, by rw [writeItems, hwrite]; exact hB⟩

variable {d d₂ d₃ : Draft} {p₀ p : Plan}

/-- An offset of an item of a plan placed within 32 bits is a 32-bit offset. -/
theorem itemOffset_lt (hall : ∀ it ∈ p.items, ∃ o, it.offset = some o ∧ o < Width.bits32.bound)
    {id v : Nat} (hv : p.itemOffset id = .ok v) : v < Width.bits32.bound := by
  obtain ⟨it, hit, ho⟩ := itemOffset_eq_ok.1 hv
  obtain ⟨o, ho', hlt⟩ := hall it (List.mem_of_getElem? hit)
  rw [ho, Option.some.injEq] at ho'
  exact ho' ▸ hlt

/-- Once the items of a settled plan are placed within 32 bits, every item is writable when every
table counts its fields in sixteen bits. -/
theorem Settled.writable (hplan : d.plan = (d₂, .ok p₀)) (h : Settled p₀ d₂ p d₃)
    (hfields : ∀ x ∈ d₂.dirs, x.fields.length < Width.bits16.bound)
    (hall : ∀ it ∈ p.items, ∃ o, it.offset = some o ∧ o < Width.bits32.bound) (it : Item) :
    p.Writable d₃ it := by
  have hplaced : p.AllPlaced := fun id it hit => by
    obtain ⟨o, ho, -⟩ := hall it (List.mem_of_getElem? hit)
    simp [ho]
  intro i _
  refine ⟨fun y hy => ?_, fun j id hid => ?_, fun n hn => ?_⟩
  · obtain ⟨x, hx⟩ : ∃ x, d₂.dirs[i]? = some x :=
      ⟨_, List.getElem?_eq_getElem (h.repatched.length ▸ (List.getElem?_eq_some_iff.1 hy).1)⟩
    rw [(h.repatched.resized.dir i x y hx hy).length]
    exact hfields x (List.mem_of_getElem? hx)
  · obtain ⟨it', hit', -⟩ := findIdx?_part hid
    obtain ⟨v, hv⟩ := hplaced.itemOffset hit'
    exact ⟨v, hv, itemOffset_lt hall hv⟩
  · obtain ⟨root, -, -, -, hof⟩ := Draft.plan_eq_ok hplan
    obtain ⟨y, hy⟩ := ofDraft_next? hof (h.placed.next?_eq ▸ hn)
    obtain ⟨v, hv⟩ := hplaced.dirOffset (h.placed.mem_table hplan hy)
    obtain ⟨id, it', hit', -, ho⟩ := dirOffset_eq_ok hv
    exact ⟨v, hv, itemOffset_lt hall (itemOffset_eq_ok.2 ⟨it', hit', ho⟩)⟩

/-- Every item of a settled plan placed within 32 bits is written into a buffer with room for it,
when every table counts its fields in sixteen bits. -/
theorem Settled.writeItems_ok (hwf : d.Coherent) (hplan : d.plan = (d₂, .ok p₀))
    (h : Settled p₀ d₂ p d₃) (hfields : ∀ x ∈ d₂.dirs, x.fields.length < Width.bits16.bound)
    (hall : ∀ it ∈ p.items, ∃ o, it.offset = some o ∧ o < Width.bits32.bound) (buf : ByteArray)
    (hroom : ∀ it ∈ p.items, ∀ o, it.offset = some o → o + it.length ≤ buf.size) :
    ∃ B, p.writeItems d₃ (List.range p.items.length) buf = .ok B := by
  refine Plan.writeItems_ok _ buf fun id hid => ?_
  obtain ⟨it, hit⟩ : ∃ it, p.items[id]? = some it :=
    ⟨_, List.getElem?_eq_getElem (List.mem_range.1 hid)⟩
  obtain ⟨o, ho, -⟩ := hall it (List.mem_of_getElem? hit)
  have hsized := h.sized hplan hit
  have hstop := pieces_ok hplan h hit (h.writable hplan hfields hall it)
  exact ⟨it, o, hit, ho, hstop, pieces_exact hsized h.repatched.repointed hstop,
    hsized.length_pos_of_thumbnails fun i x t hx ht => Draft.plan_thumbnail_pos hwf hplan hx ht,
    hroom it (List.mem_of_getElem? hit) o ho⟩

variable {buf : ByteArray} {i t : Nat} {x x' : Directory}

/-- A pointer entry read back from a written table that lies below 2^32 with its values holds the
offset of the table of the directory it links to. -/
theorem Written.linked_offset (hw : p.Written d₃ buf) (hx' : d₃.dirs[i]? = some x')
    (hF : p.Filled d i x x') (hcons : ∀ f ∈ x'.fields, f.count * f.type.size = f.bytes.size)
    (ht : p.dirOffset i = .ok t) (hend : t + Ifd.tableLength x'.fields.length ≤ Width.bits32.bound)
    (hvalues : ∀ j f id v, x'.fields[j]? = some f → p.valueItem? i j = some id →
      p.itemOffset id = .ok v → v + f.bytes.size ≤ Width.bits32.bound)
    {k : DirectoryKind} {y : Ifd} (hy : Segment.readIfd buf p.byteOrder k t = .ok y) {e : Entry}
    (he : e ∈ y.entries) {c : DirectoryKind} (hc : e.tag.linkedKind? = some c) {v : Nat}
    (hv : e.word? p.byteOrder = some v) :
    ∃ ci, d.indexOf? c = some ci ∧ p.dirOffset ci = .ok v := by
  obtain ⟨entries, next, table, -, -, hread, hentries⟩ := readIfd_written hw hx' hcons ht hend hvalues k
  rw [hread, Except.ok.injEq] at hy
  subst hy
  obtain ⟨j, f, hf, hr⟩ := hentries.mem_right he
  obtain ⟨-, ci, v₀, hci, hdir, hword⟩ := hF.pointer f (List.mem_of_getElem? hf) c (hr.tag ▸ hc)
  rw [hr.word? hword, Option.some.injEq] at hv
  exact ⟨ci, hci, hv ▸ hdir⟩

/-- A written table counts its fields in the word at its offset. -/
theorem Written.table_count (hw : p.Written d₃ buf) (hx : d₃.dirs[i]? = some x)
    (ht : p.dirOffset i = .ok t) : Segment.wordAt buf p.byteOrder t 2 = .ok x.fields.length := by
  obtain ⟨-, bs, hbs, hholds⟩ := hw.table hx ht
  obtain ⟨hlt, hcount, -⟩ := tablePieces_holds hbs hholds
  have hword := Segment.wordAt_of_holds (o := p.byteOrder) hcount
  rwa [ByteOrder.length_encode, ByteOrder.decode_encode_of_lt _ hlt] at hword

end Plan

namespace Segment

variable {data : ByteArray} {o : ByteOrder}

/-- An entry is read only at a 32-bit position. -/
theorem readEntry_position_lt {q : Nat} {e : Entry} (h : readEntry data o q = .ok e) :
    q < Width.bits32.bound := by
  obtain ⟨position, hposition, -⟩ := bind_eq_ok.1 h
  exact (Width.narrow_ok_iff.1 (mapError_eq_ok.1 hposition)).1

/-- A table that counts entries is read only when its first entry starts at a 32-bit position. -/
theorem readIfd_first_lt {k : DirectoryKind} {t n : Nat} {x : Ifd}
    (h : readIfd data o k t = .ok x) (hcount : wordAt data o t 2 = .ok n) (hn : 0 < n) :
    t + 2 < Width.bits32.bound := by
  obtain ⟨n', entries, -, -, hn', hentries, -⟩ := readIfd_eq_ok h
  rw [hcount, Except.ok.injEq] at hn'
  subst hn'
  obtain ⟨m, rfl⟩ := Nat.exists_eq_add_of_lt hn
  rw [List.range_succ_eq_map, mapM_eq_ok] at hentries
  obtain ⟨e, -, he, -⟩ := List.forall₂_cons_left_iff.1 hentries
  simpa using readEntry_position_lt he

/-- A directory that hangs below the root is read at the offset that a pointer entry of the root
table holds, the root table being the one at the offset that the header names. -/
theorem read_child_linked {s : Segment} (hs : read data = .ok s) {r : Nat}
    (hhead : readHeader data = .ok (s.byteOrder, r)) {y : Ifd} (hy : y ∈ s.ifds)
    (hparent : y.kind.parent? = some .root) (hth : y.kind ≠ .thumbnail) :
    readIfd data s.byteOrder y.kind y.offset = .ok y ∧ ∃ x, readIfd data s.byteOrder .root r = .ok x ∧
      ∃ e ∈ x.entries, e.tag.linkedKind? = some y.kind ∧ e.word? s.byteOrder = some y.offset := by
  have hst := read_structured hs
  obtain ⟨w, hw, hclaimed⟩ := read_claimed hs
  obtain ⟨r', root, bs, th, hhead', hroot, hoffset, hifds, -, -⟩ := hst.order
  rw [hhead, Except.ok.injEq, Prod.mk.injEq] at hhead'
  obtain ⟨-, rfl⟩ := hhead'
  have hread : ∀ z ∈ s.ifds, readIfd data s.byteOrder z.kind z.offset = .ok z :=
    fun z hz => (hclaimed.read z (hw ▸ hz)).2.2
  have hroot_mem : root ∈ s.ifds := by rw [hifds]; exact List.mem_cons_self
  have htail : y ∈ s.ifds.tail := by
    rw [hifds] at hy ⊢
    rcases List.mem_cons.1 hy with rfl | hy
    · simp [hroot, DirectoryKind.parent?] at hparent
    · exact hy
  obtain ⟨x, hsub, hxk, hlink⟩ := hst.parent y htail
  have hx : x ∈ s.ifds := hsub.subset List.mem_cons_self
  -- one directory of each kind, so the parent is the root read at the header's offset
  obtain rfl : x = root := List.inj_on_of_nodup_map hst.kinds hx hroot_mem
    (Option.some.inj (hparent.symm.trans hxk) ▸ hroot.symm)
  refine ⟨hread y hy, x, hroot ▸ hoffset ▸ hread x hx, ?_⟩
  rcases hlink with hlink | ⟨hk, -⟩
  · exact hlink
  · exact absurd hk hth

end Segment

namespace Directory

theorem kind_ofEntries : ∀ (x : Directory) (es : List Entry), (x.ofEntries es).kind = x.kind
  | x, [] => rfl
  | x, e :: es => by
    unfold ofEntries
    split
    · exact kind_ofEntries x es
    · split
      · rename_i x' hx'
        rw [kind_ofEntries x' es, (addField_ok_iff.1 hx').2]
      · exact kind_ofEntries x es

theorem kind_ofIfd (o : ByteOrder) (y : Ifd) : (ofIfd o y).kind = y.kind :=
  kind_ofEntries _ _

end Directory

namespace Draft

/-- Adding the directories of read tables gives only directories of their kinds. -/
theorem foldlM_addDirectory_kinds {o : ByteOrder} :
    ∀ {l : List Ifd} {d d' : Draft},
      l.foldlM (fun d y => d.addDirectory (Directory.ofIfd o y)) d = .ok d' →
      ∀ x ∈ d'.dirs, x ∈ d.dirs ∨ ∃ y ∈ l, y.kind = x.kind
  | [], d, d', h => by
    cases h
    exact fun x hx => .inl hx
  | y :: l, d, d', h => by
    rw [List.foldlM_cons] at h
    obtain ⟨d₁, hd₁, h⟩ := bind_eq_ok.1 h
    obtain ⟨-, -, rfl⟩ := addDirectory_ok_iff.1 hd₁
    intro x hx
    rcases foldlM_addDirectory_kinds h x hx with hx | ⟨z, hz, hzx⟩
    · rcases mem_insertSorted.1 hx with rfl | hx
      · exact .inr ⟨y, List.mem_cons_self, (Directory.kind_ofIfd o y).symm⟩
      · exact .inl hx
    · exact .inr ⟨z, List.mem_cons_of_mem _ hz, hzx⟩

/-- Every directory of the draft of a read segment has the kind of a directory read. -/
theorem ofSegment_kinds {s : Segment} {d : Draft} (h : ofSegment s = .ok d) :
    ∀ x ∈ d.dirs, ∃ y ∈ s.ifds, y.kind = x.kind := by
  intro x hx
  rcases foldlM_addDirectory_kinds h x hx with hx | hy
  · cases hx
  · exact hy

end Draft

namespace Compact

variable {d d₂ : Draft} {p₀ : Plan}

/-- A compact write of a well-formed draft without kept offsets succeeds when every table counts
its fields in sixteen bits, every packed item starts below 2^32 and the output ends below 2^64. -/
theorem write_ok (hwf : d.Coherent) (hkept : ∀ x ∈ d.dirs, ∀ f ∈ x.fields, f.keptOffset = none)
    (hplan : d.plan = (d₂, .ok p₀))
    (hfields : ∀ x ∈ d₂.dirs, x.fields.length < Width.bits16.bound)
    (hstart : ∀ k it, p₀.items[k]? = some it →
      headerSize + paddedLength (p₀.items.take k) < Width.bits32.bound)
    (hend : headerSize + paddedLength p₀.items < Width.bits64.bound) :
    ∃ B, write d.byteOrder d = .ok B := by
  obtain ⟨items, hpack⟩ :=
    packFrom_ok headerSize p₀.items (by decide) (plan_unplaced hkept hplan) hend
  set p : Plan := { p₀ with items } with hpdef
  have hp : p₀.Placed p := packed_placed hpack
  obtain ⟨-, hlengths, -⟩ := packFrom_eq_ok hpack
  -- every packed item starts below 2^32 and ends within the output
  have hspan : ∀ it ∈ p.items, ∃ o, it.offset = some o ∧ o < Width.bits32.bound ∧
      o + it.length ≤ headerSize + paddedLength p₀.items := by
    intro it hit
    obtain ⟨k, it₀, hit₀, ho, hle⟩ := packed_mem hpack hit
    exact ⟨_, ho, hstart k it₀ hit₀, hle⟩
  have hall : ∀ it ∈ p.items, ∃ o, it.offset = some o ∧ o < Width.bits32.bound := fun it hit => by
    obtain ⟨o, ho, hlt, -⟩ := hspan it hit
    exact ⟨o, ho, hlt⟩
  obtain ⟨d₃, hpatch, -⟩ := Plan.plan_resolves hwf hplan p hp hall
  have hS : Plan.Settled p₀ d₂ p d₃ := by
    have h := Plan.Settled.settle (s := (p, d₂)) hwf hplan
      ⟨hp, hlengths, Draft.Repatched.refl d₂⟩ (.patch p d₂)
    rwa [hpatch] at h
  obtain ⟨root, hroot⟩ := Plan.rootOffset_ok hwf hplan hp fun id it hit => by
    obtain ⟨o, ho, -⟩ := hall it (List.mem_of_getElem? hit)
    simp [ho]
  have hroot32 : root < Width.bits32.bound := by
    obtain ⟨id, it, hit, -, ho⟩ := Plan.dirOffset_eq_ok hroot
    exact Plan.itemOffset_lt hall (Plan.itemOffset_eq_ok.2 ⟨it, hit, ho⟩)
  obtain ⟨buf, hbuf⟩ := writeHeader_ok (zeros (headerSize + paddedLength p₀.items)) d.byteOrder
    hroot32 (by simp)
  obtain ⟨B, hB⟩ := hS.writeItems_ok hwf hplan hfields hall buf fun it hit o ho => by
    obtain ⟨o', ho', -, hroom⟩ := hspan it hit
    rw [ho, Option.some.injEq] at ho'
    rw [size_writeHeader hbuf, size_zeros, ho']
    exact hroom
  refine ⟨B, ?_⟩
  have hsize : checked (Width.size.narrow (headerSize + paddedLength p₀.items)) =
      .ok (headerSize + paddedLength p₀.items) :=
    checked_eq_ok.2 (Width.narrow_ok_iff.2 ⟨hend, rfl⟩)
  unfold write
  rw [if_neg (not_not.2 rfl)]
  simp only [hplan, ok_bind, hpack, hsize]
  rw [← hpdef, hpatch]
  simp only [ok_bind, hroot, hbuf]
  exact hB

section Straddling

/- A root with one undefined value of `2^32 - 40` bytes and an Exif directory with one SHORT. -/
variable (V : ByteArray) (hV : V.size = 4294967256)
include hV

theorem plan_straddling :
    Draft.plan ⟨.little, [⟨.root, .little, [.undefined ⟨270⟩ V], none⟩,
      ⟨.exif, .little, [.short ⟨0xA002⟩ 7 .little], none⟩]⟩ =
    (⟨.little, [⟨.root, .little, [.undefined ⟨270⟩ V, .long Tag.exifPointer 0 .little], none⟩,
      ⟨.exif, .little, [.short ⟨0xA002⟩ 7 .little], none⟩]⟩,
     .ok ⟨.little, [⟨.table 0, 30, none⟩, ⟨.value 0 0, 4294967256, none⟩, ⟨.table 1, 18, none⟩],
      [⟨0, Tag.exifPointer, 2⟩], [], 0⟩) := by
  have hsyn : (⟨.little, [⟨.root, .little, [.undefined ⟨270⟩ V], none⟩,
      ⟨.exif, .little, [.short ⟨0xA002⟩ 7 .little], none⟩]⟩ : Draft).synthesize =
      .ok ⟨.little, [⟨.root, .little, [.undefined ⟨270⟩ V, .long Tag.exifPointer 0 .little], none⟩,
        ⟨.exif, .little, [.short ⟨0xA002⟩ 7 .little], none⟩]⟩ := by
    simp [Draft.synthesize, Directory.synthesize, Directory.sortFields, List.mergeSort,
      structuralTags, Directory.removeField, Directory.takeField, Directory.addPointerField,
      Directory.addField, DirectoryKind.parent?, DirectoryKind.pointerTag?, Field.undefined, Field.raw,
      Field.long, Field.short, Tag.exifPointer, Tag.gpsPointer, Tag.interopPointer,
      Tag.thumbnailOffset, Tag.thumbnailLength, pure, Except.pure]
  have hshort : (Field.short ⟨0xA002⟩ 7 .little).bytes.size = 2 := by
    simp [Field.short, Field.raw, ByteArray.size]
  rw [Draft.plan_eq_of_closed (show _ = some 0 from rfl) rfl, Draft.synthesizeIn_of_ok hsyn,
    hsyn, ok_bind]
  simp [Plan.ofDraft, Plan.gather, Plan.tableLength?, Plan.valueItems, Plan.thumbnailItem,
    Plan.link, List.zipIdx, Field.outOfLine, Field.undefined, Field.raw, hV, hshort, Width.narrow,
    Width.mul, Width.add, checked, Width.bound, entrySize, Draft.indexOf?, DirectoryKind.parent?,
    DirectoryKind.pointerTag?, pure, Except.pure, Except.mapError, ok_bind, List.findIdx?_cons]

omit hV in
theorem coherent_straddling :
    Draft.Coherent ⟨.little, [⟨.root, .little, [.undefined ⟨270⟩ V], none⟩,
      ⟨.exif, .little, [.short ⟨0xA002⟩ 7 .little], none⟩]⟩ :=
  ⟨by simp [DirectoryKind.rank], by simp, by simp [Field.undefined, Field.raw, Field.short], by simp⟩

theorem write_straddling_ok :
    ∃ B, write .little ⟨.little, [⟨.root, .little, [.undefined ⟨270⟩ V], none⟩,
      ⟨.exif, .little, [.short ⟨0xA002⟩ 7 .little], none⟩]⟩ = .ok B := by
  refine write_ok (coherent_straddling V) (by simp [Field.undefined, Field.raw, Field.short])
    (plan_straddling V hV) (by simp [Width.bound]) (fun k it hk => ?_) (by decide)
  rcases k with _ | _ | _ | k
  · decide
  · decide
  · decide
  · simp at hk

/-- What the output holds: `2^32 + 16` bytes, a header naming the root table at 8, a root table
whose Exif pointer holds `2^32 - 2`, and there an Exif table that counts one entry. -/
theorem written_straddling {B : ByteArray}
    (h : write .little ⟨.little, [⟨.root, .little, [.undefined ⟨270⟩ V], none⟩,
      ⟨.exif, .little, [.short ⟨0xA002⟩ 7 .little], none⟩]⟩ = .ok B) :
    B.size = 4294967312 ∧ Segment.readHeader B = .ok (.little, 8) ∧
      (∀ x, Segment.readIfd B .little .root 8 = .ok x → ∀ e ∈ x.entries, ∀ v,
        e.tag.linkedKind? = some .exif → e.word? .little = some v → v = 4294967294) ∧
      Segment.wordAt B .little 4294967294 2 = .ok 1 := by
  obtain ⟨d₂, p₀, p, d₃, hplan, hp, hpatch, ⟨r, hr, hhead⟩, hw, -, hpack⟩ :=
    write_written (coherent_straddling V) h
  rw [plan_straddling V hV, Prod.mk.injEq] at hplan
  obtain ⟨rfl, hp₀⟩ := hplan
  cases hp₀
  have hpacked : packFrom headerSize [⟨.table 0, 30, none⟩, ⟨.value 0 0, 4294967256, none⟩,
      ⟨.table 1, 18, none⟩] = .ok ([⟨.table 0, 30, some 8⟩, ⟨.value 0 0, 4294967256, some 38⟩,
        ⟨.table 1, 18, some 4294967294⟩], 4294967312) := by
    decide
  rw [hpacked, Except.ok.injEq, Prod.mk.injEq] at hpack
  obtain ⟨hitems, hsize⟩ := hpack
  obtain ⟨d₃', hpatch', -, -, hfilled⟩ := Plan.plan_resolves (coherent_straddling V)
    (plan_straddling V hV) p hp (by rw [← hitems]; decide)
  rw [hpatch, Prod.mk.injEq] at hpatch'
  obtain ⟨rfl, -⟩ := hpatch'
  obtain ⟨bo, its, ps, ch, rt⟩ := p
  obtain ⟨hbo, hps, hch, hrt, -⟩ := hp
  dsimp only at hitems hbo hps hch hrt
  subst hitems hbo hps hch hrt
  have hres := (Plan.patch_resized hpatch).1
  obtain ⟨x₀, hx₀, hF₀⟩ := hfilled 0 _ rfl
  obtain ⟨x₁, hx₁, -⟩ := hfilled 1 _ rfl
  have hlen₀ : x₀.fields.length = 2 := (hres.dir 0 _ x₀ rfl hx₀).length
  have hlen₁ : x₁.fields.length = 1 := (hres.dir 1 _ x₁ rfl hx₁).length
  -- the root table and its value end below 2^32, so the root reads back with its entries
  have hcons₀ : ∀ f ∈ x₀.fields, f.count * f.type.size = f.bytes.size :=
    hF₀.consistent (by simp [Field.Consistent, Field.undefined, Field.raw, Field.byteCount, hV,
      show FieldType.undefined.size = 1 from rfl, Width.max, Width.bound])
  have hend : 8 + Ifd.tableLength x₀.fields.length ≤ Width.bits32.bound := by
    rw [hlen₀]
    decide
  have hvalues : ∀ j f id v, x₀.fields[j]? = some f →
      Plan.valueItem? ⟨.little, [⟨.table 0, 30, some 8⟩, ⟨.value 0 0, 4294967256, some 38⟩,
        ⟨.table 1, 18, some 4294967294⟩], [⟨0, Tag.exifPointer, 2⟩], [], 0⟩ 0 j = some id →
      Plan.itemOffset ⟨.little, [⟨.table 0, 30, some 8⟩, ⟨.value 0 0, 4294967256, some 38⟩,
        ⟨.table 1, 18, some 4294967294⟩], [⟨0, Tag.exifPointer, 2⟩], [], 0⟩ id = .ok v →
      v + f.bytes.size ≤ Width.bits32.bound := by
    intro j f id v hf hid hv
    simp [Plan.valueItem?, List.findIdx?_cons] at hid
    obtain ⟨rfl, rfl⟩ := hid
    have hv38 : v = 38 := by
      simp [Plan.itemOffset, Item.offset?] at hv
      exact hv.symm
    have hsize := (hres.dir 0 _ x₀ rfl hx₀).field 0 _ f rfl hf
    simp only [Field.undefined, Field.raw, hV] at hsize
    simp only [hv38, Width.bound]
    omega
  have hr8 : r = 8 := by
    have h8 : Plan.rootOffset ⟨.little, [⟨.table 0, 30, some 8⟩, ⟨.value 0 0, 4294967256, some 38⟩,
      ⟨.table 1, 18, some 4294967294⟩], [⟨0, Tag.exifPointer, 2⟩], [], 0⟩ = .ok 8 := rfl
    rw [h8, Except.ok.injEq] at hr
    exact hr.symm
  subst hr8
  refine ⟨hsize.symm, Segment.readHeader_of_holds hhead (by decide),
    fun x hx e he v hc hv => ?_, ?_⟩
  · obtain ⟨ci, hci, hdir⟩ := Plan.Written.linked_offset hw hx₀ hF₀ hcons₀ rfl hend hvalues hx he hc hv
    obtain rfl : ci = 1 := (Option.some.inj hci).symm
    exact (Except.ok.inj hdir).symm
  · have hcount := hw.table_count hx₁ (t := 4294967294) rfl
    rwa [hlen₁] at hcount

/-- The Exif table is packed at `2^32 - 2`, so its entry starts at `2^32`: the output is
`2^32 + 16` bytes long, and reading it back never gives the Exif directory. -/
theorem readBack_straddling {B : ByteArray}
    (h : write .little ⟨.little, [⟨.root, .little, [.undefined ⟨270⟩ V], none⟩,
      ⟨.exif, .little, [.short ⟨0xA002⟩ 7 .little], none⟩]⟩ = .ok B) :
    B.size = 4294967312 ∧ ∀ s, Segment.read B = .ok s → ∀ y ∈ s.ifds, y.kind ≠ .exif := by
  obtain ⟨hsize, hheader, hlink, hcount⟩ := written_straddling V hV h
  refine ⟨hsize, fun s hs y hy hyk => ?_⟩
  have hbo : s.byteOrder = .little := by
    obtain ⟨r', -, -, -, hh, -⟩ := (Segment.read_structured hs).order
    rw [hheader, Except.ok.injEq, Prod.mk.injEq] at hh
    exact hh.1.symm
  rw [← hbo] at hheader
  obtain ⟨hready, x, hx, e, he, hc, hv⟩ := Segment.read_child_linked hs hheader hy
    (by rw [hyk]; rfl) (by rw [hyk]; decide)
  rw [hbo] at hready hx hv
  -- the Exif directory would be read at the offset its link holds, where its entry is past 2^32
  have hoff : y.offset = 4294967294 := hlink x hx e he y.offset (hyk ▸ hc) hv
  have hlt := Segment.readIfd_first_lt (hyk ▸ hoff ▸ hready) hcount Nat.one_pos
  exact absurd hlt (by decide)

end Straddling

section ReadBack

variable {o : ByteOrder} {B : ByteArray}

/-- Compact output of a well-formed draft whose fields are consistent reads back, when 32-bit
offsets reach all of it, as a segment in the writer's byte order whose draft is the normal form
of the draft written; and writing that normal form gives the same bytes. -/
theorem write_readBack (hwf : d.WellFormed) (hcons : d.Consistent) (h : write o d = .ok B)
    (hsize : B.size ≤ Width.bits32.bound) :
    ∃ s, Segment.read B = .ok s ∧ s.byteOrder = o ∧ Draft.ofSegment s = .ok d.normalize ∧
      write o d.normalize = .ok B := by
  obtain ⟨d₂, p₀, p, d₃, hplan, hp, hpatch, himg⟩ := write_image hwf.coherent h hsize
  obtain ⟨s, hs, hbo, hseg⟩ := himg.readBack hwf.coherent hcons hplan hp hpatch
  exact ⟨s, hs, hbo.trans (write_eq_ok h).1.symm, hseg, (write_normalize hwf).trans h⟩

/-- A root with an inline SHORT and a six-byte value, and an Exif directory with one SHORT: the
root table gets the Exif pointer as its third entry, the value follows it at 50 and the Exif
table at 56, and the output reads back as the normal form of the draft. -/
theorem write_readBack_exif :
    Draft.WellFormed ⟨.little, [⟨.root, .little, [.short ⟨256⟩ 5 .little,
      .undefined ⟨270⟩ ⟨#[1, 2, 3, 4, 5, 6]⟩], none⟩, ⟨.exif, .little, [.short ⟨0xA002⟩ 7 .little], none⟩]⟩ ∧
    Draft.Consistent ⟨.little, [⟨.root, .little, [.short ⟨256⟩ 5 .little,
      .undefined ⟨270⟩ ⟨#[1, 2, 3, 4, 5, 6]⟩], none⟩, ⟨.exif, .little, [.short ⟨0xA002⟩ 7 .little], none⟩]⟩ ∧
    write .little ⟨.little, [⟨.root, .little, [.short ⟨256⟩ 5 .little,
      .undefined ⟨270⟩ ⟨#[1, 2, 3, 4, 5, 6]⟩], none⟩, ⟨.exif, .little, [.short ⟨0xA002⟩ 7 .little], none⟩]⟩ =
      .ok ⟨#[73, 73, 42, 0, 8, 0, 0, 0, 3, 0, 0, 1, 3, 0, 1, 0, 0, 0, 5, 0, 0, 0, 14, 1, 7, 0, 6, 0, 0, 0,
        50, 0, 0, 0, 105, 135, 4, 0, 1, 0, 0, 0, 56, 0, 0, 0, 0, 0, 0, 0, 1, 2, 3, 4, 5, 6, 1, 0, 2, 160,
        3, 0, 1, 0, 0, 0, 7, 0, 0, 0, 0, 0, 0, 0]⟩ ∧
    ByteArray.size ⟨#[73, 73, 42, 0, 8, 0, 0, 0, 3, 0, 0, 1, 3, 0, 1, 0, 0, 0, 5, 0, 0, 0, 14, 1, 7, 0, 6, 0, 0, 0,
        50, 0, 0, 0, 105, 135, 4, 0, 1, 0, 0, 0, 56, 0, 0, 0, 0, 0, 0, 0, 1, 2, 3, 4, 5, 6, 1, 0, 2, 160,
        3, 0, 1, 0, 0, 0, 7, 0, 0, 0, 0, 0, 0, 0]⟩ ≤ Width.bits32.bound ∧
    ∃ s, Segment.read ⟨#[73, 73, 42, 0, 8, 0, 0, 0, 3, 0, 0, 1, 3, 0, 1, 0, 0, 0, 5, 0, 0, 0, 14, 1, 7, 0, 6, 0, 0, 0,
        50, 0, 0, 0, 105, 135, 4, 0, 1, 0, 0, 0, 56, 0, 0, 0, 0, 0, 0, 0, 1, 2, 3, 4, 5, 6, 1, 0, 2, 160,
        3, 0, 1, 0, 0, 0, 7, 0, 0, 0, 0, 0, 0, 0]⟩ = .ok s ∧
      s.byteOrder = .little ∧
      Draft.ofSegment s = .ok (Draft.normalize ⟨.little, [⟨.root, .little, [.short ⟨256⟩ 5 .little,
      .undefined ⟨270⟩ ⟨#[1, 2, 3, 4, 5, 6]⟩], none⟩, ⟨.exif, .little, [.short ⟨0xA002⟩ 7 .little], none⟩]⟩) ∧
      write .little (Draft.normalize ⟨.little, [⟨.root, .little, [.short ⟨256⟩ 5 .little,
      .undefined ⟨270⟩ ⟨#[1, 2, 3, 4, 5, 6]⟩], none⟩, ⟨.exif, .little, [.short ⟨0xA002⟩ 7 .little], none⟩]⟩) =
        .ok ⟨#[73, 73, 42, 0, 8, 0, 0, 0, 3, 0, 0, 1, 3, 0, 1, 0, 0, 0, 5, 0, 0, 0, 14, 1, 7, 0, 6, 0, 0, 0,
        50, 0, 0, 0, 105, 135, 4, 0, 1, 0, 0, 0, 56, 0, 0, 0, 0, 0, 0, 0, 1, 2, 3, 4, 5, 6, 1, 0, 2, 160,
        3, 0, 1, 0, 0, 0, 7, 0, 0, 0, 0, 0, 0, 0]⟩ := by
  have hwf : Draft.WellFormed ⟨.little, [⟨.root, .little, [.short ⟨256⟩ 5 .little,
      .undefined ⟨270⟩ ⟨#[1, 2, 3, 4, 5, 6]⟩], none⟩, ⟨.exif, .little, [.short ⟨0xA002⟩ 7 .little], none⟩]⟩ :=
    ⟨by decide, by simp, by decide, by simp [Field.short, Field.undefined, Field.raw], by simp⟩
  have hcons : Draft.Consistent ⟨.little, [⟨.root, .little, [.short ⟨256⟩ 5 .little,
      .undefined ⟨270⟩ ⟨#[1, 2, 3, 4, 5, 6]⟩], none⟩, ⟨.exif, .little, [.short ⟨0xA002⟩ 7 .little], none⟩]⟩ := by
    simp only [Draft.Consistent, Field.Consistent, List.mem_cons, List.not_mem_nil, or_false,
      forall_eq_or_imp, forall_eq]
    decide
  have hsyn : Draft.synthesize ⟨.little, [⟨.root, .little, [.short ⟨256⟩ 5 .little,
      .undefined ⟨270⟩ ⟨#[1, 2, 3, 4, 5, 6]⟩], none⟩, ⟨.exif, .little, [.short ⟨0xA002⟩ 7 .little], none⟩]⟩ =
      .ok ⟨.little, [⟨.root, .little, [.short ⟨256⟩ 5 .little, .undefined ⟨270⟩ ⟨#[1, 2, 3, 4, 5, 6]⟩,
        .long Tag.exifPointer 0 .little], none⟩, ⟨.exif, .little, [.short ⟨0xA002⟩ 7 .little], none⟩]⟩ := by
    simp [Draft.synthesize, Directory.synthesize, Directory.sortFields, List.mergeSort, structuralTags,
      Directory.removeField, Directory.takeField, Directory.addPointerField, Directory.addField,
      DirectoryKind.parent?, DirectoryKind.pointerTag?, Field.short, Field.undefined, Field.raw,
      Field.long, Tag.exifPointer, Tag.gpsPointer, Tag.interopPointer, Tag.thumbnailOffset,
      Tag.thumbnailLength, pure, Except.pure]
  have hw : write .little ⟨.little, [⟨.root, .little, [.short ⟨256⟩ 5 .little,
      .undefined ⟨270⟩ ⟨#[1, 2, 3, 4, 5, 6]⟩], none⟩, ⟨.exif, .little, [.short ⟨0xA002⟩ 7 .little], none⟩]⟩ =
      .ok ⟨#[73, 73, 42, 0, 8, 0, 0, 0, 3, 0, 0, 1, 3, 0, 1, 0, 0, 0, 5, 0, 0, 0, 14, 1, 7, 0, 6, 0, 0, 0,
        50, 0, 0, 0, 105, 135, 4, 0, 1, 0, 0, 0, 56, 0, 0, 0, 0, 0, 0, 0, 1, 2, 3, 4, 5, 6, 1, 0, 2, 160,
        3, 0, 1, 0, 0, 0, 7, 0, 0, 0, 0, 0, 0, 0]⟩ := by
    unfold write
    rw [Draft.plan_eq_of_closed (show _ = some 0 by decide) (by decide), Draft.synthesizeIn_of_ok hsyn,
      hsyn, ok_bind]
    decide +kernel
  have hsize : ByteArray.size ⟨#[73, 73, 42, 0, 8, 0, 0, 0, 3, 0, 0, 1, 3, 0, 1, 0, 0, 0, 5, 0, 0, 0, 14, 1, 7, 0, 6, 0, 0, 0,
        50, 0, 0, 0, 105, 135, 4, 0, 1, 0, 0, 0, 56, 0, 0, 0, 0, 0, 0, 0, 1, 2, 3, 4, 5, 6, 1, 0, 2, 160,
        3, 0, 1, 0, 0, 0, 7, 0, 0, 0, 0, 0, 0, 0]⟩ ≤ Width.bits32.bound := by
    decide
  exact ⟨hwf, hcons, hw, hsize, write_readBack hwf hcons hw hsize⟩

/-- Compact output past 2^32 bytes need not read back. With a root value of `2^32 - 40` bytes and
an Exif directory, the write succeeds with the Exif table packed at `2^32 - 2`; the entry of that
table starts at `2^32`, where the reader no longer takes its position, so the draft read back has
no Exif directory. -/
theorem write_readBack_straddling :
    Draft.WellFormed ⟨.little, [⟨.root, .little, [.undefined ⟨270⟩ ⟨Array.replicate 4294967256 0⟩], none⟩,
      ⟨.exif, .little, [.short ⟨0xA002⟩ 7 .little], none⟩]⟩ ∧
    Draft.Consistent ⟨.little, [⟨.root, .little, [.undefined ⟨270⟩ ⟨Array.replicate 4294967256 0⟩], none⟩,
      ⟨.exif, .little, [.short ⟨0xA002⟩ 7 .little], none⟩]⟩ ∧
    ∃ B, write .little ⟨.little, [⟨.root, .little, [.undefined ⟨270⟩ ⟨Array.replicate 4294967256 0⟩],
        none⟩, ⟨.exif, .little, [.short ⟨0xA002⟩ 7 .little], none⟩]⟩ = .ok B ∧
      Width.bits32.bound < B.size ∧
      ∀ s, Segment.read B = .ok s → Draft.ofSegment s ≠ .ok (Draft.normalize ⟨.little,
        [⟨.root, .little, [.undefined ⟨270⟩ ⟨Array.replicate 4294967256 0⟩], none⟩,
          ⟨.exif, .little, [.short ⟨0xA002⟩ 7 .little], none⟩]⟩) := by
  have hV : ByteArray.size ⟨Array.replicate 4294967256 0⟩ = 4294967256 := by
    simp only [ByteArray.size, Array.size_replicate]
  generalize (⟨Array.replicate 4294967256 0⟩ : ByteArray) = V at hV ⊢
  obtain ⟨B, hB⟩ := write_straddling_ok V hV
  obtain ⟨hsize, hlost⟩ := readBack_straddling V hV hB
  have hcoh := coherent_straddling V
  have hvalue : (Field.undefined ⟨270⟩ V).Consistent := by
    simp [Field.Consistent, Field.undefined, Field.raw, Field.byteCount, hV,
      show FieldType.undefined.size = 1 from rfl, Width.max, Width.bound]
  have hshort : (Field.short ⟨0xA002⟩ 7 .little).Consistent := by
    unfold Field.Consistent
    decide
  refine ⟨⟨hcoh.sorted, hcoh.byteOrder, hcoh.distinctTags,
    by simp [Field.undefined, Field.raw, Field.short], hcoh.thumbnails⟩,
    by simp [Draft.Consistent, hvalue, hshort], B, hB, by rw [hsize]; decide, fun s hs hseg => ?_⟩
  obtain ⟨y, hy, hk⟩ := Draft.ofSegment_kinds hseg
    (Directory.normalize ⟨.exif, .little, [.short ⟨0xA002⟩ 7 .little], none⟩)
    (by simp [Draft.normalize])
  exact hlost s hs y hy hk

end ReadBack

end Compact

end TiffLayout
