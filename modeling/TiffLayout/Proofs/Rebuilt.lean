import TiffLayout.Rebuild
import TiffLayout.Proofs.Contents
import TiffLayout.Proofs.Frame
import TiffLayout.Proofs.Similar
/-! Reading a rebuilt segment: it reads back as the normal form of its draft when written compactly,
and through the gaps when no two old ranges share a byte. -/
namespace TiffLayout

namespace Draft

/-- Forgetting kept offsets does not change the normal form. -/
theorem normalize_clearKeptOffsets (d : Draft) : d.clearKeptOffsets.normalize = d.normalize := by
  simp only [normalize, clearKeptOffsets, List.map_map]
  congr 1
  refine List.map_congr_left fun x _ => ?_
  simp only [Function.comp_apply, Directory.normalize, Directory.normalFields, List.filter_map,
    List.map_map]
  rfl

theorem consistent_clearKeptOffsets_iff {d : Draft} : d.clearKeptOffsets.Consistent ↔ d.Consistent := by
  simp [Consistent, clearKeptOffsets, Field.Consistent]

/-- Keeping offsets keeps the fields of a draft consistent. -/
theorem Consistent.of_clear {d d' : Draft} (hd : d.Consistent)
    (h : d'.clearKeptOffsets = d.clearKeptOffsets) : d'.Consistent := by
  rw [← consistent_clearKeptOffsets_iff, h]
  exact consistent_clearKeptOffsets_iff.2 hd

end Draft

namespace Compact

variable {o : ByteOrder} {d : Draft} {B : ByteArray}

/-- Compact output of a well-formed draft with consistent fields reads back as its normal form,
when 32-bit offsets reach all of it. -/
theorem write_reads_normalize (hwf : d.WellFormed) (hcons : d.Consistent) (h : write o d = .ok B)
    (hsize : B.size ≤ Width.bits32.bound) :
    ∃ s, Segment.read B = .ok s ∧ s.byteOrder = d.byteOrder ∧ Draft.ofSegment s = .ok d.normalize := by
  obtain ⟨d₂, p₀, p, d₃, hplan, hp, hpatch, himg⟩ := write_image hwf.coherent h hsize
  exact himg.readBack hwf.coherent hcons hplan hp hpatch

end Compact

namespace Reuse

variable {o : ByteOrder} {old B : ByteArray} {frozen : List Tag} {d : Draft}

theorem write_byteOrder (h : write o old frozen d = .ok B) : o = d.byteOrder := by
  unfold write at h
  split at h
  · obtain ⟨_, hthrow, -⟩ := bind_eq_ok.1 h
    cases hthrow
  · rename_i hbo
    exact not_not.1 hbo

/-- Output that reuses the layout of an old segment reads back, when 32-bit offsets reach all of
it, as the normal form of the well-formed draft written, with consistent fields, provided that
every value the analysis keeps in place lies apart from the runs it gives for reuse. The analysis
only keeps offsets, so both paths write the draft itself. -/
theorem write_readBack_of_keptApart (hwf : d.WellFormed) (hcons : d.Consistent)
    (h : write o old frozen d = .ok B) (hsize : B.size ≤ Width.bits32.bound)
    (hkept : ∀ runs d₁, Gaps.analyze old o d frozen = .ok (runs, d₁) →
      ∀ x ∈ d₁.dirs, ∀ f ∈ x.fields, ∀ q, f.keptOffset = some q →
        ∀ r ∈ runs, Extent.Apart ⟨q, f.bytes.size⟩ r) :
    ∃ s, Segment.read B = .ok s ∧ s.byteOrder = o ∧ Draft.ofSegment s = .ok d.normalize := by
  have hbo := write_byteOrder h
  obtain ⟨runs, d₁, hanalyze, hpath⟩ := write_eq_ok h
  have hself := Draft.clearKeptOffsets_eq_self hwf.noKeptOffsets
  have hclear : d₁.clearKeptOffsets = d.clearKeptOffsets := Gaps.analyze_clear hanalyze hwf.noKeptOffsets
  rcases hpath with ⟨-, hcompact⟩ | ⟨-, hgaps⟩
  · rw [hclear, hself] at hcompact
    obtain ⟨s, hs, hbo', hseg⟩ := Compact.write_reads_normalize hwf hcons hcompact hsize
    exact ⟨s, hs, hbo'.trans hbo.symm, hseg⟩
  · have hwf₁ : d₁.Coherent := hwf.coherent.of_clear hclear
    have hbo₁ : d₁.byteOrder = d.byteOrder := congrArg (·.byteOrder) hclear
    obtain ⟨d₂, p₀, p, d₃, hplan, hp, hpatch, himg, -⟩ := writeGaps_image hwf₁ hanalyze
      (Gaps.analyze_keptIn hanalyze hwf.noKeptOffsets)
      (hkept runs d₁ hanalyze) (hbo.trans hbo₁.symm) hgaps hsize
    obtain ⟨s, hs, hbo', hseg⟩ := himg.readBack hwf₁ (hcons.of_clear hclear) hplan hp hpatch
    have hnormal : d₁.normalize = d.normalize := by
      rw [← Draft.normalize_clearKeptOffsets d₁, hclear, Draft.normalize_clearKeptOffsets]
    exact ⟨s, hs, hbo'.trans (hbo₁.trans hbo.symm), hnormal ▸ hseg⟩

/-- Output that reuses the layout of an old segment whose ranges share no byte reads back, when
32-bit offsets reach all of it, as the normal form of the well-formed draft written, with
consistent fields. -/
theorem write_readBack_of_apart (hwf : d.WellFormed) (hcons : d.Consistent)
    (h : write o old frozen d = .ok B) (hsize : B.size ≤ Width.bits32.bound) {s₀ : Segment}
    (hold : Segment.read old = .ok s₀) (hsep : (s₀.ifds.flatMap Ifd.extents).Pairwise Extent.Apart) :
    ∃ s, Segment.read B = .ok s ∧ s.byteOrder = o ∧ Draft.ofSegment s = .ok d.normalize :=
  write_readBack_of_keptApart hwf hcons h hsize fun _ _ hanalyze =>
    Gaps.analyze_kept_apart hanalyze hwf.noKeptOffsets hold hsep

end Reuse

/-- A segment that reads has a draft whose directories are, in layout order, those that its
directories describe: of the same kind, holding the entries without structural tags in entry
order, only the first of each tag, and the thumbnail read. Rebuilding the segment gives output that
reads back as the normal form of that draft, when 32-bit offsets reach all of it: always when it is
written compactly, and when it reuses the old layout, if no two ranges of the segment share a
byte. -/
theorem rebuild_readBack {data : ByteArray} {s : Segment} (h : Segment.read data = .ok s) :
    ∃ d, Draft.ofSegment s = .ok d ∧ d.dirs.Perm (s.ifds.map (Ifd.toDirectory s.byteOrder)) ∧
      ∀ (compact : Bool) (B : ByteArray), rebuild data compact = .ok B →
        B.size ≤ Width.bits32.bound →
        (compact = true ∨ (s.ifds.flatMap Ifd.extents).Pairwise Extent.Apart) →
        ∃ s', Segment.read B = .ok s' ∧ s'.byteOrder = s.byteOrder ∧
          Draft.ofSegment s' = .ok d.normalize := by
  obtain ⟨d, hd, hbo, hperm, hwf, hcons⟩ := Draft.ofSegment_read h
  refine ⟨d, hd, hperm, fun compact B hB hsize hcase => ?_⟩
  simp only [rebuild, h, hd, Except.mapError, ok_bind] at hB
  cases compact with
  | true =>
    obtain ⟨s', hs', hbo', hseg⟩ := Compact.write_reads_normalize hwf hcons (mapError_eq_ok.1 hB) hsize
    exact ⟨s', hs', hbo'.trans hbo, hseg⟩
  | false =>
    have hsep := hcase.resolve_left Bool.false_ne_true
    exact Reuse.write_readBack_of_apart hwf hcons (mapError_eq_ok.1 hB) hsize h hsep

/-- A root holding an image width of 5, with two bytes after its table, reads and rebuilds. -/
theorem rebuild_readBack_imageWidth :
    ∃ s, Segment.read ⟨#[0x49, 0x49, 0x2A, 0, 8, 0, 0, 0, 1, 0, 0, 1, 3, 0, 1, 0, 0, 0, 5, 0, 0, 0, 0, 0,
      0, 0, 0xAB, 0xCD]⟩ = .ok s ∧
    ∃ d, Draft.ofSegment s = .ok d ∧ d.dirs.Perm (s.ifds.map (Ifd.toDirectory s.byteOrder)) ∧
      ∀ (compact : Bool) (B : ByteArray),
        rebuild ⟨#[0x49, 0x49, 0x2A, 0, 8, 0, 0, 0, 1, 0, 0, 1, 3, 0, 1, 0, 0, 0, 5, 0, 0, 0, 0, 0, 0, 0,
          0xAB, 0xCD]⟩ compact = .ok B →
        B.size ≤ Width.bits32.bound →
        (compact = true ∨ (s.ifds.flatMap Ifd.extents).Pairwise Extent.Apart) →
        ∃ s', Segment.read B = .ok s' ∧ s'.byteOrder = s.byteOrder ∧
          Draft.ofSegment s' = .ok d.normalize := by
  have hread : Segment.read ⟨#[0x49, 0x49, 0x2A, 0, 8, 0, 0, 0, 1, 0, 0, 1, 3, 0, 1, 0, 0, 0, 5, 0, 0,
      0, 0, 0, 0, 0, 0xAB, 0xCD]⟩ =
      .ok ⟨.little, [⟨.root, 8, [⟨⟨0x100⟩, ⟨3⟩, 1, 10, .inline [5, 0, 0, 0], ⟨#[5, 0]⟩⟩], 0, none,
        ⟨#[1, 0, 0, 1, 3, 0, 1, 0, 0, 0, 5, 0, 0, 0, 0, 0, 0, 0]⟩⟩]⟩ := by
    rfl
  exact ⟨_, hread, rebuild_readBack hread⟩

end TiffLayout
