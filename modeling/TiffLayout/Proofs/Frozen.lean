import TiffLayout.Proofs.Rebuilt
/-! Frozen values in a layout that reuses an old segment: when none shares a byte with another
old range, each stays at its offset with its bytes and the output reads back as the draft. -/
namespace TiffLayout

open Buffer Segment

namespace Draft

/-- In directories kept in layout order, a directory before which no directory has a field with
tag `t` is the first with one. -/
theorem FirstWith.of_sorted {dirs : List Directory}
    (hsorted : (dirs.map (·.kind.rank)).Pairwise (· < ·)) {i : Nat} {x : Directory}
    (hx : dirs[i]? = some x) {t : Tag} {f : Field} (hf : x.find? t = some f)
    (hbefore : ∀ z ∈ dirs, z.kind.rank < x.kind.rank → z.find? t = none) :
    FirstWith t i f dirs := by
  have hpair := List.pairwise_iff_getElem.1 (List.pairwise_map.1 hsorted)
  obtain ⟨hi, rfl⟩ := List.getElem?_eq_some_iff.1 hx
  refine ⟨fun j hj z hz => ?_, ⟨_, hx, hf⟩⟩
  obtain ⟨hj', rfl⟩ := List.getElem?_eq_some_iff.1 hz
  exact hbefore _ (List.getElem_mem hj') (hpair j i hj' hi hj)

/-- Drafts that differ only in kept offsets have directories of the same kinds at each index. -/
theorem kind_of_clear {d d' : Draft} (h : d'.clearKeptOffsets = d.clearKeptOffsets) {i : Nat}
    {x x' : Directory} (hx : d.dirs[i]? = some x) (hx' : d'.dirs[i]? = some x') :
    x'.kind = x.kind := by
  have hdirs := congrArg (fun d : Draft => d.dirs[i]?) h
  simp only [clearKeptOffsets, List.getElem?_map, hx, hx', Option.map_some,
    Option.some.injEq] at hdirs
  exact (Directory.mk.inj hdirs).1

end Draft

namespace Plan

section Kept

variable {d d₂ d₃ : Draft} {p₀ p : Plan} {buf : ByteArray}

/-- The value item of a field stored out of line carries the offset that the field keeps. -/
theorem ofDraft_valueItem {root : Nat} (h : ofDraft d root = .ok p) {i j : Nat} {x : Directory}
    {f : Field} (hx : d.dirs[i]? = some x) (hf : x.fields[j]? = some f) (hout : f.outOfLine) :
    ∃ id, p.valueItem? i j = some id ∧
      p.items[id]? = some ⟨.value i j, f.bytes.size, f.keptOffset⟩ := by
  have hmem : (⟨.value i j, f.bytes.size, f.keptOffset⟩ : Item) ∈ p.items := by
    rw [ofDraft_items h]
    refine List.mem_flatMap.2 ⟨(x, i), List.mk_mem_zipIdx_iff_getElem?.2 hx, ?_⟩
    exact List.mem_cons_of_mem _ (List.mem_append_left _ (List.mem_map.2
      ⟨(f, j), List.mem_filter.2 ⟨List.mk_mem_zipIdx_iff_getElem?.2 hf, hout⟩, rfl⟩))
  obtain ⟨id, hid⟩ := List.mem_iff_getElem?.1 hmem
  exact ⟨id, findIdx?_of_nodup_map (ofDraft_nodup_parts h) hid, hid⟩

/-- In an image of a planned, placed and patched draft whose items placed in advance stayed where
they were, a field of directory `i` with a plain tag that keeps an offset reads back from the
directory's table as an entry with its tag and bytes, its value stored out of line at that
offset. -/
theorem ReadsBack.kept_entry (hwf : d.Coherent) (hcons : d.Consistent)
    (hplan : d.plan = (d₂, .ok p₀)) (hp : p₀.Placed p) (hpatch : p.patch d₂ = (d₃, .ok ()))
    (himg : p.Image d₃ buf)
    (hstay : ∀ id, id ∉ Reuse.writtenIds p₀ d.keptOffsets → p.items[id]? = p₀.items[id]?)
    {i : Nat} {x : Directory} {y : Ifd} (hx : d.dirs[i]? = some x) (hr : p.ReadsBack d buf i x y)
    {f : Field} (hf : f ∈ x.fields) (hns : f.tag.isStructural = false) (hout : f.outOfLine)
    {q : Nat} (hq : f.keptOffset = some q) :
    ∃ e ∈ y.entries, e.tag = f.tag ∧ e.value = f.bytes ∧ e.slot = .outOfLine q := by
  obtain ⟨root, -, -, -, hof⟩ := Draft.plan_eq_ok hplan
  have hx₂ := plan_dir hwf hplan hx
  obtain ⟨j, hj⟩ := List.mem_iff_getElem?.1
    (Directory.mem_sortFields_withPlaceholders.2 (Or.inl ⟨hf, hns⟩))
  -- its value item is placed in advance at the offset kept, so placement leaves it there
  obtain ⟨id, hid₀, hit₀⟩ := ofDraft_valueItem hof hx₂ hj hout
  have hkept : q ∈ d.keptOffsets :=
    Draft.mem_keptOffsets.2 ⟨x, List.mem_of_getElem? hx, List.mem_filterMap.2 ⟨f, hf, hq⟩⟩
  have hnot : id ∉ Reuse.writtenIds p₀ d.keptOffsets := fun hmem => by
    obtain ⟨it, hit, hfree⟩ := Reuse.mem_writtenIds.1 hmem
    rw [hit₀, Option.some.injEq] at hit
    exact hfree q (by rw [← hit, hq]) hkept
  have hit : p.items[id]? = some ⟨.value i j, f.bytes.size, some q⟩ := by
    rw [hstay id hnot, hit₀, hq]
  have hnd : (p.items.map (·.part)).Nodup := hp.parts ▸ ofDraft_nodup_parts hof
  have hid : p.valueItem? i j = some id := findIdx?_of_nodup_map hnd hit
  obtain ⟨-, -, hpatched⟩ := patch_patched hwf hplan hp hpatch
  obtain ⟨x₃, hx₃, hP⟩ := hpatched i _ hx₂
  have hj₃ := hP.getElem?_of_plain hof hp hj hns
  obtain ⟨-, -, hfilled⟩ := filled hwf hplan hp hpatch
  obtain ⟨x', hx', hF⟩ := hfilled i x hx
  rw [hx₃, Option.some.injEq] at hx'
  subst hx'
  obtain ⟨entries, next, table, -, -, hread, hE⟩ := himg.readIfd hx₃
    (hF.consistent (hcons x (List.mem_of_getElem? hx))) hr.offset x.kind
  have hy : y = ⟨x.kind, y.offset, entries, next, thumbnailOf buf p.byteOrder entries, table⟩ :=
    Except.ok.inj (hr.read.symm.trans hread)
  obtain ⟨e, he⟩ : ∃ e, entries[j]? = some e :=
    ⟨_, List.getElem?_eq_getElem (hE.length ▸ (List.getElem?_eq_some_iff.1 hj₃).1)⟩
  have hreads := hE.reads j f e hj₃ he
  obtain ⟨id', v, hid', hv, hslot⟩ := hreads.outOfLine hout
  rw [hid, Option.some.injEq] at hid'
  subst hid'
  have hvq : v = q := by
    obtain ⟨it, hit', hoff⟩ := itemOffset_eq_ok.1 hv
    rw [hit, Option.some.injEq] at hit'
    rw [← hit'] at hoff
    exact (Option.some.inj hoff).symm
  refine ⟨e, by rw [hy]; exact List.mem_of_getElem? he, hreads.tag, hreads.value, ?_⟩
  rw [hslot, hvq]

end Kept

end Plan

namespace Reuse

variable {o : ByteOrder} {old B : ByteArray} {frozen : List Tag} {d : Draft}

/-- Output that reuses the layout of an old segment reads back, when 32-bit offsets reach all of
it, as the normal form of the well-formed draft written, with consistent fields, when no value of a
frozen tag in the old segment shares a byte with another of its ranges. -/
theorem write_readBack_of_frozenApart (hwf : d.WellFormed) (hcons : d.Consistent) {s₀ : Segment}
    (hold : Segment.read old = .ok s₀) (hapart : s₀.FrozenApart frozen)
    (h : write o old frozen d = .ok B) (hsize : B.size ≤ Width.bits32.bound) :
    ∃ s, Segment.read B = .ok s ∧ s.byteOrder = o ∧ Draft.ofSegment s = .ok d.normalize :=
  write_readBack_of_keptApart hwf hcons h hsize fun _ _ hanalyze =>
    Gaps.analyze_frozen_apart hanalyze hwf.noKeptOffsets hold hapart

/-- The old segment's root stores a maker note after its table; the draft's root holds it
unchanged. The maker note stays in place, and the output reads back. -/
theorem write_readBack_of_frozenApart_makerNote :
    Draft.WellFormed ⟨.little, [⟨.root, .little, [Field.undefined Tag.makerNote ⟨#[1, 2, 3, 4, 5]⟩], none⟩]⟩ ∧
    Draft.Consistent ⟨.little, [⟨.root, .little, [Field.undefined Tag.makerNote ⟨#[1, 2, 3, 4, 5]⟩], none⟩]⟩ ∧
    (∃ s₀, Segment.read
      ⟨#[0x49, 0x49, 0x2A, 0, 8, 0, 0, 0, 1, 0, 0x7C, 0x92, 7, 0, 5, 0, 0, 0, 26, 0, 0, 0, 0, 0, 0, 0, 1, 2, 3, 4, 5]⟩ = .ok s₀ ∧
      s₀.FrozenApart [Tag.makerNote]) ∧
    write .little
      ⟨#[0x49, 0x49, 0x2A, 0, 8, 0, 0, 0, 1, 0, 0x7C, 0x92, 7, 0, 5, 0, 0, 0, 26, 0, 0, 0, 0, 0, 0, 0, 1, 2, 3, 4, 5]⟩
      [Tag.makerNote] ⟨.little, [⟨.root, .little, [Field.undefined Tag.makerNote ⟨#[1, 2, 3, 4, 5]⟩], none⟩]⟩ =
      .ok ⟨#[0x49, 0x49, 0x2A, 0, 8, 0, 0, 0, 1, 0, 0x7C, 0x92, 7, 0, 5, 0, 0, 0, 26, 0, 0, 0, 0, 0, 0, 0, 1, 2, 3, 4, 5]⟩ ∧
    ByteArray.size
      ⟨#[0x49, 0x49, 0x2A, 0, 8, 0, 0, 0, 1, 0, 0x7C, 0x92, 7, 0, 5, 0, 0, 0, 26, 0, 0, 0, 0, 0, 0, 0, 1, 2, 3, 4, 5]⟩ ≤ Width.bits32.bound ∧
    ∃ s, Segment.read
      ⟨#[0x49, 0x49, 0x2A, 0, 8, 0, 0, 0, 1, 0, 0x7C, 0x92, 7, 0, 5, 0, 0, 0, 26, 0, 0, 0, 0, 0, 0, 0, 1, 2, 3, 4, 5]⟩ = .ok s ∧
      s.byteOrder = .little ∧ Draft.ofSegment s = .ok (Draft.normalize ⟨.little, [⟨.root, .little, [Field.undefined Tag.makerNote ⟨#[1, 2, 3, 4, 5]⟩], none⟩]⟩) := by
  have hwf : Draft.WellFormed ⟨.little, [⟨.root, .little, [Field.undefined Tag.makerNote ⟨#[1, 2, 3, 4, 5]⟩], none⟩]⟩ :=
    ⟨by simp, by simp, by simp, by simp [Field.undefined, Field.raw], by simp⟩
  have hcons : Draft.Consistent ⟨.little, [⟨.root, .little, [Field.undefined Tag.makerNote ⟨#[1, 2, 3, 4, 5]⟩], none⟩]⟩ := by
    simp [Draft.Consistent, Field.Consistent, Field.undefined, Field.raw, Field.byteCount]
    decide
  have hread : Segment.read
      ⟨#[0x49, 0x49, 0x2A, 0, 8, 0, 0, 0, 1, 0, 0x7C, 0x92, 7, 0, 5, 0, 0, 0, 26, 0, 0, 0, 0, 0, 0, 0, 1, 2, 3, 4, 5]⟩ =
      .ok ⟨.little, [⟨.root, 8, [⟨Tag.makerNote, FieldType.undefined, 5, 10, .outOfLine 26,
        ⟨#[1, 2, 3, 4, 5]⟩⟩], 0, none, ⟨#[1, 0, 0x7C, 0x92, 7, 0, 5, 0, 0, 0, 26, 0, 0, 0, 0, 0, 0, 0]⟩⟩]⟩ := by
    rfl
  have hapart : Segment.FrozenApart ⟨.little, [⟨.root, 8, [⟨Tag.makerNote, FieldType.undefined, 5, 10, .outOfLine 26,
        ⟨#[1, 2, 3, 4, 5]⟩⟩], 0, none, ⟨#[1, 0, 0x7C, 0x92, 7, 0, 5, 0, 0, 0, 26, 0, 0, 0, 0, 0, 0, 0]⟩⟩]⟩ [Tag.makerNote] := by
    decide +kernel
  have hw : write .little
      ⟨#[0x49, 0x49, 0x2A, 0, 8, 0, 0, 0, 1, 0, 0x7C, 0x92, 7, 0, 5, 0, 0, 0, 26, 0, 0, 0, 0, 0, 0, 0, 1, 2, 3, 4, 5]⟩
      [Tag.makerNote] ⟨.little, [⟨.root, .little, [Field.undefined Tag.makerNote ⟨#[1, 2, 3, 4, 5]⟩], none⟩]⟩ =
      .ok ⟨#[0x49, 0x49, 0x2A, 0, 8, 0, 0, 0, 1, 0, 0x7C, 0x92, 7, 0, 5, 0, 0, 0, 26, 0, 0, 0, 0, 0, 0, 0, 1, 2, 3, 4, 5]⟩ := by
    decide +kernel
  have hsize : ByteArray.size
      ⟨#[0x49, 0x49, 0x2A, 0, 8, 0, 0, 0, 1, 0, 0x7C, 0x92, 7, 0, 5, 0, 0, 0, 26, 0, 0, 0, 0, 0, 0, 0, 1, 2, 3, 4, 5]⟩ ≤ Width.bits32.bound := by
    decide
  exact ⟨hwf, hcons, ⟨_, hread, hapart⟩, hw, hsize,
    write_readBack_of_frozenApart hwf hcons hread hapart hw hsize⟩

/-- In output that fills the gaps of an old segment, a field of the analysed draft with a plain
tag that keeps an offset reads back, in a directory of its kind, as an entry with its tag and
bytes, its value stored at that offset. -/
theorem writeGaps_kept_entry (hwf : d.WellFormed) (hcons : d.Consistent) {runs : List Extent}
    {d₁ : Draft} (hanalyze : Gaps.analyze old o d frozen = .ok (runs, d₁))
    (hapart : ∀ x ∈ d₁.dirs, ∀ f ∈ x.fields, ∀ q, f.keptOffset = some q →
      ∀ r ∈ runs, Extent.Apart ⟨q, f.bytes.size⟩ r)
    (hbo : o = d.byteOrder) (hgaps : writeGaps o old runs d₁ = .ok B)
    (hsize : B.size ≤ Width.bits32.bound) {i : Nat} {x : Directory} (hx : d₁.dirs[i]? = some x)
    {f : Field} (hf : f ∈ x.fields) (hns : f.tag.isStructural = false) {q : Nat}
    (hq : f.keptOffset = some q) :
    ∃ s, Segment.read B = .ok s ∧ ∃ y ∈ s.ifds, y.kind = x.kind ∧
      ∃ e ∈ y.entries, e.tag = f.tag ∧ e.value = f.bytes ∧ e.slot = .outOfLine q := by
  have hclear := Gaps.analyze_clear hanalyze hwf.noKeptOffsets
  have hwf₁ : d₁.Coherent := hwf.coherent.of_clear hclear
  have hcons₁ : d₁.Consistent := hcons.of_clear hclear
  have hbo₁ : d₁.byteOrder = d.byteOrder := congrArg (·.byteOrder) hclear
  have hkeptIn := Gaps.analyze_keptIn hanalyze hwf.noKeptOffsets
  obtain ⟨d₂, p₀, p, d₃, hplan, hp, hpatch, himg, hstay⟩ := writeGaps_image hwf₁ hanalyze hkeptIn
    hapart (hbo.trans hbo₁.symm) hgaps hsize
  obtain ⟨s, hs, -, -, -, hall⟩ := himg.read_ifds hwf₁ hcons₁ hplan hp hpatch
  obtain ⟨y, hy, hr⟩ := hall i x hx
  obtain ⟨-, hout, -⟩ := hkeptIn x (List.mem_of_getElem? hx) f hf q hq
  obtain ⟨e, he, htag, hvalue, hslot⟩ :=
    hr.kept_entry hwf₁ hcons₁ hplan hp hpatch himg hstay hx hf hns hout hq
  exact ⟨s, hs, y, hy, readIfd_kind hr.read, e, he, htag, hvalue, hslot⟩

/-- An unchanged value of a frozen tag stays where the old segment has it. Take an entry of a
directory of the old segment, with a plain frozen tag, whose value is stored out of line at `q`,
and the first entry of the segment with that tag and value; let the draft's directory of the same
kind hold that value for the tag, with no directory before it holding the tag. When no frozen value
of the old segment shares a byte with another of its ranges, the output holds the value at `q`;
with consistent fields and 32-bit offsets, it reads back with an entry of that tag and value in the
directory of that kind, its value stored at `q`. -/
theorem write_keeps_frozen_value (hwf : d.WellFormed) {s₀ : Segment}
    (hold : Segment.read old = .ok s₀) (hapart : s₀.FrozenApart frozen) {y : Ifd}
    (hy : y ∈ s₀.ifds) {e : Entry} (he : e ∈ y.entries) {q : Nat} (hq : e.slot = .outOfLine q)
    (hfrozen : e.tag ∈ frozen) (hplain : e.tag.isStructural = false)
    (hfirst : (s₀.ifds.flatMap (·.entries)).find?
      (fun e' => e'.tag = e.tag ∧ e'.value.data = e.value.data) = some e)
    {x : Directory} (hx : x ∈ d.dirs) (hkind : x.kind = y.kind)
    (hval : (x.find? e.tag).map (·.bytes.data) = some e.value.data)
    (hbefore : ∀ z ∈ d.dirs, z.kind.rank < x.kind.rank → z.find? e.tag = none)
    (h : write o old frozen d = .ok B) :
    Holds B q e.value.data.toList ∧ (d.Consistent → B.size ≤ Width.bits32.bound →
      ∃ s, Segment.read B = .ok s ∧ ∃ y' ∈ s.ifds, y'.kind = y.kind ∧
        ∃ e' ∈ y'.entries, e'.tag = e.tag ∧ e'.value = e.value ∧ e'.slot = .outOfLine q) := by
  obtain ⟨f, hf, hdata⟩ := Option.map_eq_some_iff.1 hval
  have htag : f.tag = e.tag := by
    have := List.find?_some hf
    simpa using this
  obtain ⟨i, hi⟩ := List.mem_iff_getElem?.1 hx
  obtain ⟨hheader, hlong, hholds⟩ := Segment.read_values hold y hy e he q hq
  obtain ⟨runs, d₁, hanalyze, hpath⟩ := write_eq_ok h
  have hnone := hwf.noKeptOffsets x hx f (List.mem_of_find?_eq_some hf)
  have hkept := Gaps.analyze_keeps_first hanalyze hold hfrozen
    (Draft.FirstWith.of_sorted hwf.sorted hi hf hbefore) hnone (by rw [hdata]; exact hfirst) hq
  obtain ⟨x₁, hx₁, hf₁⟩ := hkept.here
  have hf₁mem : { f with keptOffset := some q } ∈ x₁.fields := List.mem_of_find?_eq_some hf₁
  have hsize : f.bytes.size = e.value.size := congrArg Array.size hdata
  have happart := Gaps.analyze_frozen_apart hanalyze hwf.noKeptOffsets hold hapart
  have hlen : e.value.data.toList.length = e.value.size := Array.length_toList
  have hruns : ∀ r ∈ runs, Extent.Apart ⟨q, e.value.data.toList.length⟩ r := fun r hr => by
    simpa [hsize] using happart x₁ (List.mem_of_getElem? hx₁) _ hf₁mem q rfl r hr
  rcases hpath with ⟨hone, -⟩ | ⟨-, hgaps⟩
  · have hbound := hholds.bound
    have hmeet := hruns _ (hone ▸ List.mem_singleton_self _)
    rw [hlen] at hbound hmeet
    simp only [Extent.Apart, Extent.stop, headerSize] at hmeet hheader
    omega
  refine ⟨writeGaps_keeps hanalyze hgaps hholds hheader (by rw [hlen]; omega) hruns,
    fun hcons hsize32 => ?_⟩
  obtain ⟨s, hs, y', hy', hkind', e', he', htag', hvalue', hslot⟩ := writeGaps_kept_entry hwf hcons
    hanalyze happart (write_byteOrder h) hgaps hsize32 hx₁ hf₁mem (htag ▸ hplain) rfl
  have hkind₁ : x₁.kind = x.kind :=
    Draft.kind_of_clear (Gaps.analyze_clear hanalyze hwf.noKeptOffsets) hi hx₁
  have hbytes : f.bytes = e.value := ByteArray.ext hdata
  exact ⟨s, hs, y', hy', hkind'.trans (hkind₁.trans hkind), e', he', htag'.trans htag,
    hvalue'.trans hbytes, hslot⟩

/-- The maker note of the old segment's root, held unchanged by the draft's root, stays at offset
26, and the root read back points there. -/
theorem write_keeps_frozen_value_makerNote :
    ∃ s₀ : Segment, Segment.read
      ⟨#[0x49, 0x49, 0x2A, 0, 8, 0, 0, 0, 1, 0, 0x7C, 0x92, 7, 0, 5, 0, 0, 0, 26, 0, 0, 0, 0, 0, 0, 0, 1, 2, 3, 4, 5]⟩ = .ok s₀ ∧
      s₀.FrozenApart [Tag.makerNote] ∧ ∃ y ∈ s₀.ifds, ∃ e ∈ y.entries, e.slot = .outOfLine 26 ∧
        e.tag ∈ [Tag.makerNote] ∧ e.tag.isStructural = false ∧
        (s₀.ifds.flatMap (·.entries)).find?
          (fun e' => e'.tag = e.tag ∧ e'.value.data = e.value.data) = some e ∧
        Draft.WellFormed ⟨.little, [⟨.root, .little, [Field.undefined Tag.makerNote ⟨#[1, 2, 3, 4, 5]⟩], none⟩]⟩ ∧
        (⟨.root, .little, [Field.undefined Tag.makerNote ⟨#[1, 2, 3, 4, 5]⟩], none⟩ : Directory).kind = y.kind ∧
        ((⟨.root, .little, [Field.undefined Tag.makerNote ⟨#[1, 2, 3, 4, 5]⟩], none⟩ : Directory).find? e.tag).map (·.bytes.data) = some e.value.data ∧
        (∀ z ∈ (⟨.little, [⟨.root, .little, [Field.undefined Tag.makerNote ⟨#[1, 2, 3, 4, 5]⟩], none⟩]⟩ : Draft).dirs, z.kind.rank < (⟨.root, .little, [Field.undefined Tag.makerNote ⟨#[1, 2, 3, 4, 5]⟩], none⟩ : Directory).kind.rank →
          z.find? e.tag = none) ∧
        write .little
          ⟨#[0x49, 0x49, 0x2A, 0, 8, 0, 0, 0, 1, 0, 0x7C, 0x92, 7, 0, 5, 0, 0, 0, 26, 0, 0, 0, 0, 0, 0, 0, 1, 2, 3, 4, 5]⟩
          [Tag.makerNote] ⟨.little, [⟨.root, .little, [Field.undefined Tag.makerNote ⟨#[1, 2, 3, 4, 5]⟩], none⟩]⟩ =
          .ok ⟨#[0x49, 0x49, 0x2A, 0, 8, 0, 0, 0, 1, 0, 0x7C, 0x92, 7, 0, 5, 0, 0, 0, 26, 0, 0, 0, 0, 0, 0, 0, 1, 2, 3, 4, 5]⟩ ∧
        Holds ⟨#[0x49, 0x49, 0x2A, 0, 8, 0, 0, 0, 1, 0, 0x7C, 0x92, 7, 0, 5, 0, 0, 0, 26, 0, 0, 0, 0, 0, 0, 0, 1, 2, 3, 4, 5]⟩
          26 e.value.data.toList ∧
        (Draft.Consistent ⟨.little, [⟨.root, .little, [Field.undefined Tag.makerNote ⟨#[1, 2, 3, 4, 5]⟩], none⟩]⟩ →
          ByteArray.size
            ⟨#[0x49, 0x49, 0x2A, 0, 8, 0, 0, 0, 1, 0, 0x7C, 0x92, 7, 0, 5, 0, 0, 0, 26, 0, 0, 0, 0, 0, 0, 0, 1, 2, 3, 4, 5]⟩ ≤ Width.bits32.bound →
          ∃ s, Segment.read
            ⟨#[0x49, 0x49, 0x2A, 0, 8, 0, 0, 0, 1, 0, 0x7C, 0x92, 7, 0, 5, 0, 0, 0, 26, 0, 0, 0, 0, 0, 0, 0, 1, 2, 3, 4, 5]⟩ = .ok s ∧
            ∃ y' ∈ s.ifds, y'.kind = y.kind ∧
              ∃ e' ∈ y'.entries, e'.tag = e.tag ∧ e'.value = e.value ∧ e'.slot = .outOfLine 26) := by
  have hwf : Draft.WellFormed ⟨.little, [⟨.root, .little, [Field.undefined Tag.makerNote ⟨#[1, 2, 3, 4, 5]⟩], none⟩]⟩ :=
    ⟨by simp, by simp, by simp, by simp [Field.undefined, Field.raw], by simp⟩
  have hread : Segment.read
      ⟨#[0x49, 0x49, 0x2A, 0, 8, 0, 0, 0, 1, 0, 0x7C, 0x92, 7, 0, 5, 0, 0, 0, 26, 0, 0, 0, 0, 0, 0, 0, 1, 2, 3, 4, 5]⟩ =
      .ok ⟨.little, [⟨.root, 8, [⟨Tag.makerNote, FieldType.undefined, 5, 10, .outOfLine 26,
        ⟨#[1, 2, 3, 4, 5]⟩⟩], 0, none, ⟨#[1, 0, 0x7C, 0x92, 7, 0, 5, 0, 0, 0, 26, 0, 0, 0, 0, 0, 0, 0]⟩⟩]⟩ := by
    rfl
  have hapart : Segment.FrozenApart ⟨.little, [⟨.root, 8, [⟨Tag.makerNote, FieldType.undefined, 5, 10, .outOfLine 26,
        ⟨#[1, 2, 3, 4, 5]⟩⟩], 0, none, ⟨#[1, 0, 0x7C, 0x92, 7, 0, 5, 0, 0, 0, 26, 0, 0, 0, 0, 0, 0, 0]⟩⟩]⟩ [Tag.makerNote] := by
    decide +kernel
  have hfirst : ((Segment.ifds ⟨.little, [⟨.root, 8, [⟨Tag.makerNote, FieldType.undefined, 5, 10, .outOfLine 26,
        ⟨#[1, 2, 3, 4, 5]⟩⟩], 0, none, ⟨#[1, 0, 0x7C, 0x92, 7, 0, 5, 0, 0, 0, 26, 0, 0, 0, 0, 0, 0, 0]⟩⟩]⟩).flatMap (·.entries)).find?
      (fun e' => e'.tag = Tag.makerNote ∧ e'.value.data = #[1, 2, 3, 4, 5]) =
      some ⟨Tag.makerNote, FieldType.undefined, 5, 10, .outOfLine 26, ⟨#[1, 2, 3, 4, 5]⟩⟩ := by
    rfl
  have hval : ((⟨.root, .little, [Field.undefined Tag.makerNote ⟨#[1, 2, 3, 4, 5]⟩], none⟩ : Directory).find? Tag.makerNote).map (·.bytes.data) = some #[1, 2, 3, 4, 5] := by
    rfl
  have hbefore : ∀ z ∈ (⟨.little, [⟨.root, .little, [Field.undefined Tag.makerNote ⟨#[1, 2, 3, 4, 5]⟩], none⟩]⟩ : Draft).dirs, z.kind.rank < (⟨.root, .little, [Field.undefined Tag.makerNote ⟨#[1, 2, 3, 4, 5]⟩], none⟩ : Directory).kind.rank →
      z.find? Tag.makerNote = none := by
    intro z hz hlt
    simp only [List.mem_singleton] at hz
    subst hz
    exact absurd hlt (Nat.lt_irrefl _)
  have hw : write .little
      ⟨#[0x49, 0x49, 0x2A, 0, 8, 0, 0, 0, 1, 0, 0x7C, 0x92, 7, 0, 5, 0, 0, 0, 26, 0, 0, 0, 0, 0, 0, 0, 1, 2, 3, 4, 5]⟩
      [Tag.makerNote] ⟨.little, [⟨.root, .little, [Field.undefined Tag.makerNote ⟨#[1, 2, 3, 4, 5]⟩], none⟩]⟩ =
      .ok ⟨#[0x49, 0x49, 0x2A, 0, 8, 0, 0, 0, 1, 0, 0x7C, 0x92, 7, 0, 5, 0, 0, 0, 26, 0, 0, 0, 0, 0, 0, 0, 1, 2, 3, 4, 5]⟩ := by
    decide +kernel
  exact ⟨_, hread, hapart, _, List.mem_singleton_self _, _, List.mem_singleton_self _, rfl,
    List.mem_singleton_self _, rfl, hfirst, hwf, rfl, hval, hbefore, hw,
    write_keeps_frozen_value hwf hread hapart (List.mem_singleton_self _) (List.mem_singleton_self _)
      rfl (List.mem_singleton_self _) rfl hfirst (List.mem_singleton_self _) rfl hval hbefore hw⟩

end Reuse

end TiffLayout
