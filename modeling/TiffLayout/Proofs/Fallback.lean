import TiffLayout.Proofs.Similar
/-! An old layout that is one run from the header to its end: the writer that reuses it writes
exactly as the compact writer does. -/
namespace TiffLayout

namespace Reuse

variable {o : ByteOrder} {old : ByteArray} {frozen : List Tag} {d d₁ : Draft} {r : Extent}

/-- An old segment whose structure is one run from the header to its end is rewritten exactly as
the compact writer writes the draft. -/
theorem write_eq_compact (hwf : d.WellFormed) (h : Gaps.analyze old o d frozen = .ok ([r], d₁))
    (hstart : r.offset = headerSize) (hend : r.stop = old.size) :
    write o old frozen d = Compact.write o d := by
  -- the analysis only kept offsets, which the fast path forgets again
  have hclear : d₁.clearKeptOffsets = d :=
    (Gaps.analyze_clear h hwf.noKeptOffsets).trans (Draft.clearKeptOffsets_eq_self hwf.noKeptOffsets)
  have hbound : r.stop < Width.bits64.bound := by
    obtain ⟨s, extents, -, hruns, -⟩ := Gaps.analyze_kept h hwf.noKeptOffsets
    exact Extent.coalesce_stop_lt hruns r List.mem_cons_self
  have hr : r.end? = .ok old.size := Extent.end?_eq_ok.2 ⟨hbound, hend.symm⟩
  unfold write
  by_cases hbo : o ≠ d.byteOrder
  · simp [hbo, Compact.write, throw, throwThe, MonadExceptOf.throw, bind, Except.bind]
  · simp [hbo, h, hstart, hr, checked, Except.mapError, hclear]

/-- A root of one SHORT field, rewritten over the segment that holds it: the old table is the one
run, and the rewrite is the compact one. -/
theorem write_eq_compact_imageWidth :
    Draft.WellFormed ⟨.little, [⟨.root, .little, [Field.short ⟨0x0100⟩ 7 .little], none⟩]⟩ ∧
    Gaps.analyze ⟨#[0x49, 0x49, 0x2A, 0, 8, 0, 0, 0, 1, 0, 0, 1, 3, 0, 1, 0, 0, 0, 7, 0, 0, 0,
        0, 0, 0, 0]⟩ .little ⟨.little, [⟨.root, .little, [Field.short ⟨0x0100⟩ 7 .little], none⟩]⟩
        defaultFrozen =
      .ok ([⟨8, 18⟩], ⟨.little, [⟨.root, .little, [Field.short ⟨0x0100⟩ 7 .little], none⟩]⟩) ∧
    (⟨8, 18⟩ : Extent).offset = headerSize ∧
    (⟨8, 18⟩ : Extent).stop = (⟨#[0x49, 0x49, 0x2A, 0, 8, 0, 0, 0, 1, 0, 0, 1, 3, 0, 1, 0, 0, 0,
        7, 0, 0, 0, 0, 0, 0, 0]⟩ : ByteArray).size ∧
    write .little ⟨#[0x49, 0x49, 0x2A, 0, 8, 0, 0, 0, 1, 0, 0, 1, 3, 0, 1, 0, 0, 0, 7, 0, 0, 0,
        0, 0, 0, 0]⟩ defaultFrozen
        ⟨.little, [⟨.root, .little, [Field.short ⟨0x0100⟩ 7 .little], none⟩]⟩ =
      Compact.write .little ⟨.little, [⟨.root, .little, [Field.short ⟨0x0100⟩ 7 .little], none⟩]⟩ := by
  have hwf : Draft.WellFormed ⟨.little, [⟨.root, .little, [Field.short ⟨0x0100⟩ 7 .little], none⟩]⟩ :=
    ⟨by simp, by simp, by simp, by simp [Field.short, Field.raw], by simp⟩
  have hanalyze : Gaps.analyze ⟨#[0x49, 0x49, 0x2A, 0, 8, 0, 0, 0, 1, 0, 0, 1, 3, 0, 1, 0, 0, 0, 7,
      0, 0, 0, 0, 0, 0, 0]⟩ .little ⟨.little, [⟨.root, .little, [Field.short ⟨0x0100⟩ 7 .little], none⟩]⟩
      defaultFrozen =
      .ok ([⟨8, 18⟩], ⟨.little, [⟨.root, .little, [Field.short ⟨0x0100⟩ 7 .little], none⟩]⟩) := by
    with_unfolding_all rfl
  exact ⟨hwf, hanalyze, rfl, rfl, write_eq_compact hwf hanalyze rfl rfl⟩

end Reuse

end TiffLayout
