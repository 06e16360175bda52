import TiffLayout.Proofs.GapImage
/-! What a write reusing an old layout leaves of the old segment: bytes after the header outside
every run keep their old value, and bytes of a run that no written item covers are zero. -/
namespace TiffLayout

open Buffer Emission

namespace Extent

/-- The byte at `q` lies in the range. -/
def Covers (e : Extent) (q : Nat) : Prop := e.offset ≤ q ∧ q < e.stop

/-- A range is apart from the one byte at `q` exactly when it does not cover it. -/
theorem apart_one_iff {e : Extent} {q : Nat} : Extent.Apart e ⟨q, 1⟩ ↔ ¬ e.Covers q := by
  simp only [Apart, Covers, stop]
  omega

end Extent

namespace Buffer

theorem holds_singleton_iff {buf : ByteArray} {q : Nat} {b : UInt8} :
    Holds buf q [b] ↔ buf.data.toList[q]? = some b := by
  constructor
  · intro h
    simpa using h.get 0 (by simp)
  · intro h
    have hlt : q < buf.size := by
      have := (List.getElem?_eq_some_iff.1 h).1
      simpa using this
    exact ⟨by simp only [List.length_singleton]; omega, fun i hi => by
      obtain rfl : i = 0 := by simpa using hi
      simpa using h⟩

/-- Clearing a range sets the bytes inside it, as far as the buffer reaches, to zero and keeps
the others. -/
theorem getElem?_clear (buf : ByteArray) (start stop k : Nat) :
    (clear buf start stop).data.toList[k]? =
      if start ≤ k ∧ k < stop ∧ k < buf.size then some 0 else buf.data.toList[k]? := by
  unfold clear
  rw [getElem?_put]
  simp only [List.length_replicate]
  by_cases h : start ≤ k ∧ k < stop ∧ k < buf.size
  · rw [if_pos (by omega), if_pos h, List.getElem?_replicate, if_pos (by omega)]
  · rw [if_neg (by omega), if_neg h]

theorem getElem?_zeros (n k : Nat) : (zeros n).data.toList[k]? = if k < n then some 0 else none := by
  simp only [zeros, Array.toList_replicate, List.getElem?_replicate]

end Buffer

namespace Plan

/-- Writing the header and then items keeps a byte after the header that no item's span covers. -/
theorem byte_kept_of_uncovered {p : Plan} {d : Draft} {ids : List Nat} {o : ByteOrder} {root q : Nat}
    {buf buf' B : ByteArray} {b : UInt8}
    (hemit : ∀ (id : Nat) (it : Item), p.items[id]? = some it → Emits it.length (p.pieces it d))
    (hwh : writeHeader buf o root = .ok buf') (hwrite : p.writeItems d ids buf' = .ok B)
    (hq : buf.data.toList[q]? = some b) (hheader : headerSize ≤ q)
    (hspans : ∀ id ∈ ids, ∀ s, p.span? id = some s → ¬ s.Covers q) :
    B.data.toList[q]? = some b := by
  have hbuf' := (writeHeader_eq_ok hwh).2.2 (holds_singleton_iff.2 hq) hheader
  exact holds_singleton_iff.1 (writeItems_keeps hemit hwrite hbuf'
    fun id hid s hs => Extent.apart_one_iff.2 (hspans id hid s hs))

end Plan

namespace Compact

variable {o : ByteOrder} {d : Draft} {B : ByteArray}

/-- A compact write that succeeds leaves zero every byte after the header that no item covers. -/
theorem write_clears (h : write o d = .ok B) :
    ∃ d₂ p₀ items length, d.plan = (d₂, .ok p₀) ∧
      packFrom headerSize p₀.items = .ok (items, length) ∧
      ∀ q, headerSize ≤ q → q < B.size →
        (∀ id ∈ List.range items.length, ∀ s, ({ p₀ with items } : Plan).span? id = some s →
          ¬ s.Covers q) →
        B.data.toList[q]? = some 0 := by
  obtain ⟨-, d₂, p₀, items, length, d₃, root, buf, hplan, hpack, hpatch, -, hwh, hwrite⟩ :=
    write_eq_ok h
  refine ⟨d₂, p₀, items, length, hplan, hpack, fun q hheader hlt hspans => ?_⟩
  have hsize : B.size = length := by
    rw [Plan.size_writeItems hwrite, size_writeHeader hwh, size_zeros]
  have hzero : (zeros length).data.toList[q]? = some 0 := by
    rw [getElem?_zeros, if_pos (hsize ▸ hlt)]
  exact Plan.byte_kept_of_uncovered (packed_emits hplan hpack hpatch) hwh hwrite hzero hheader
    hspans

end Compact

namespace Reuse

/-- The canvas is zero at every byte of a run, as far as the new segment reaches. -/
theorem canvas_clears {old buf : ByteArray} {runs : List Extent} {length q : Nat}
    (h : canvas old runs length = .ok buf) {r : Extent} (hr : r ∈ runs) (hq : r.Covers q)
    (hlt : q < length) : buf.data.toList[q]? = some 0 := by
  unfold canvas at h
  obtain ⟨size, hsize, h⟩ := bind_eq_ok.1 h
  obtain ⟨-, hsz⟩ := Width.narrow_ok_iff.1 (checked_eq_ok.1 hsize)
  rw [hsz] at h
  have hstep : ∀ (b : ByteArray) (e : Extent) (l : List Extent),
      (b.size = length ∧ (r ∈ e :: l ∨ b.data.toList[q]? = some 0)) →
      (∀ b', (do let stop ← checked e.end?; pure (Buffer.clear b e.offset stop)) = .ok b' →
        b'.size = length ∧ (r ∈ l ∨ b'.data.toList[q]? = some 0)) ∧
      (∀ err, (do let stop ← checked e.end?; pure (Buffer.clear b e.offset stop)) = .error err →
        True) := by
    intro b e l ⟨hb, hrl⟩
    refine ⟨fun b' hb' => ?_, fun _ _ => trivial⟩
    obtain ⟨stop, hstop, hb'⟩ := bind_eq_ok.1 hb'
    obtain ⟨-, rfl⟩ := Extent.end?_eq_ok.1 (checked_eq_ok.1 hstop)
    rw [← Except.ok.inj hb']
    refine ⟨by rw [size_clear, hb], ?_⟩
    rw [getElem?_clear]
    rcases hrl with hrl | hzero
    · rcases List.mem_cons.1 hrl with rfl | hrl
      · exact Or.inr (if_pos ⟨hq.1, hq.2, by omega⟩)
      · exact Or.inl hrl
    · split
      · exact Or.inr rfl
      · exact Or.inr hzero
  obtain ⟨-, hdone⟩ := (foldlM_induction (f := fun (b : ByteArray) (e : Extent) => do
      let stop ← checked e.end?
      pure (Buffer.clear b e.offset stop))
    (fun b l => b.size = length ∧ (r ∈ l ∨ b.data.toList[q]? = some 0)) (fun _ => True) hstep
    ⟨by simp, Or.inl hr⟩).1 buf h
  simpa using hdone

section Gaps

variable {o : ByteOrder} {old : ByteArray} {d₀ d : Draft} {frozen : List Tag} {runs : List Extent}
  {B : ByteArray}

/-- Writing into the gaps of an analysed segment leaves zero every byte of a run, as far as the
new segment reaches, that no item written covers. -/
theorem writeGaps_clears (hanalyze : Gaps.analyze old o d₀ frozen = .ok (runs, d))
    (h : writeGaps o old runs d = .ok B) :
    ∃ d₂ p₀ p length, d.plan = (d₂, .ok p₀) ∧
      place runs old.size p₀ (writtenIds p₀ d.keptOffsets) = .ok (p, length) ∧
      ∀ q, q < B.size → (∃ r ∈ runs, r.Covers q) →
        (∀ id ∈ writtenIds p₀ d.keptOffsets, ∀ s, p.span? id = some s → ¬ s.Covers q) →
        B.data.toList[q]? = some 0 := by
  obtain ⟨d₂, p₀, p, length, d₃, buf, root, buf', hplan, hplace, hpatch, hcanvas, -, hwh,
    hwrite⟩ := writeGaps_eq_ok h
  obtain ⟨hold, hinside, hsep⟩ := Gaps.analyze_runs hanalyze
  obtain ⟨pool, tail, -, -, hl⟩ := (place_spec hinside hsep hold (writtenIds_nodup p₀ _)
    (writtenIds_unplaced hplan)).1 p length hplace
  refine ⟨d₂, p₀, p, length, hplan, hplace, fun q hlt ⟨r, hr, hcov⟩ hspans => ?_⟩
  have hsize : B.size = length := by
    rw [Plan.size_writeItems hwrite, size_writeHeader hwh, canvas_spec.1 buf hcanvas]
  have hheader : headerSize ≤ q := Nat.le_trans (hinside r hr).header hcov.1
  exact Plan.byte_kept_of_uncovered (hl.emits hplan hpatch) hwh hwrite
    (canvas_clears hcanvas hr hcov (hsize ▸ hlt)) hheader hspans

end Gaps

section Write

variable {o : ByteOrder} {old : ByteArray} {frozen : List Tag} {d : Draft} {B : ByteArray}

/-- The two ways a write reusing `old` succeeds: compactly, with no offset kept, when the one run
of the analysis spans the segment after the header, and into the gaps of the runs otherwise. -/
theorem write_eq_ok (h : write o old frozen d = .ok B) :
    ∃ runs d₁, Gaps.analyze old o d frozen = .ok (runs, d₁) ∧
      (runs = [⟨headerSize, old.size - headerSize⟩] ∧ Compact.write o d₁.clearKeptOffsets = .ok B ∨
        runs ≠ [⟨headerSize, old.size - headerSize⟩] ∧ writeGaps o old runs d₁ = .ok B) := by
  unfold write at h
  split at h
  · obtain ⟨_, hthrow, -⟩ := bind_eq_ok.1 h
    cases hthrow
  obtain ⟨⟨runs, d₁⟩, hanalyze, h⟩ := bind_eq_ok.1 h
  obtain ⟨hold, -, -⟩ := Gaps.analyze_runs hanalyze
  refine ⟨runs, d₁, hanalyze, ?_⟩
  dsimp only at h
  split at h
  · rename_i first rest
    split at h
    · rename_i hone
      obtain ⟨rfl, hfirst⟩ := hone
      obtain ⟨stop, hstop, h⟩ := bind_eq_ok.1 h
      obtain ⟨-, rfl⟩ := Extent.end?_eq_ok.1 (checked_eq_ok.1 hstop)
      simp only [pure_bind, decide_eq_true_eq] at h
      split at h
      · rename_i hend
        have hrun : first = ⟨headerSize, old.size - headerSize⟩ := by
          obtain ⟨offset, length⟩ := first
          simp only [Extent.stop] at hend hfirst
          subst hfirst
          simp only [Extent.mk.injEq, true_and]
          omega
        exact Or.inl ⟨by rw [hrun], h⟩
      · rename_i hend
        refine Or.inr ⟨fun heq => hend ?_, h⟩
        rw [(List.cons_eq_cons.1 heq).1]
        simp only [Extent.stop]
        omega
    · rename_i hnot
      simp only [pure_bind, Bool.false_eq_true, if_false] at h
      refine Or.inr ⟨fun heq => hnot ?_, h⟩
      obtain ⟨rfl, rfl⟩ := List.cons_eq_cons.1 heq
      exact ⟨rfl, rfl⟩
  · cases h

/-- The items a write reusing `old` lays out, given the runs and the draft of its analysis. When
the one run spans the segment after the header, the draft is written compactly: every item,
packed after the header. Otherwise the items not kept at an old offset are placed into the gaps of
the runs or past the tail. -/
inductive Arranged (old : ByteArray) (runs : List Extent) (d : Draft) : Plan → List Nat → Prop
  | compact {d₂ : Draft} {p₀ : Plan} {items : List Item} {length : Nat} :
      runs = [⟨headerSize, old.size - headerSize⟩] → d.clearKeptOffsets.plan = (d₂, .ok p₀) →
      Compact.packFrom headerSize p₀.items = .ok (items, length) →
      Arranged old runs d { p₀ with items } (List.range items.length)
  | gaps {d₂ : Draft} {p₀ p : Plan} {length : Nat} :
      runs ≠ [⟨headerSize, old.size - headerSize⟩] → d.plan = (d₂, .ok p₀) →
      place runs old.size p₀ (writtenIds p₀ d.keptOffsets) = .ok (p, length) →
      Arranged old runs d p (writtenIds p₀ d.keptOffsets)

/-- The runs and the draft fix the items laid out. -/
theorem Arranged.unique {old : ByteArray} {runs : List Extent} {d : Draft} {p p' : Plan}
    {ids ids' : List Nat} (h : Arranged old runs d p ids) (h' : Arranged old runs d p' ids') :
    p = p' ∧ ids = ids' := by
  cases h with
  | compact hone hplan hpack =>
    cases h' with
    | compact _ hplan' hpack' =>
      rw [hplan, Prod.mk.injEq, Except.ok.injEq] at hplan'
      obtain ⟨-, rfl⟩ := hplan'
      rw [hpack, Except.ok.injEq, Prod.mk.injEq] at hpack'
      obtain ⟨rfl, -⟩ := hpack'
      exact ⟨rfl, rfl⟩
    | gaps hne _ _ => exact absurd hone hne
  | gaps hne hplan hplace =>
    cases h' with
    | compact hone _ _ => exact absurd hone hne
    | gaps _ hplan' hplace' =>
      rw [hplan, Prod.mk.injEq, Except.ok.injEq] at hplan'
      obtain ⟨-, rfl⟩ := hplan'
      rw [hplace, Except.ok.injEq, Prod.mk.injEq] at hplace'
      obtain ⟨rfl, -⟩ := hplace'
      exact ⟨rfl, rfl⟩

/-- A write reusing `old` that succeeds keeps every old byte after the header that no run of the
analysis meets, and leaves zero every byte of a run that no item it lays out covers. -/
theorem write_frame (h : write o old frozen d = .ok B) :
    ∃ runs d₁, Gaps.analyze old o d frozen = .ok (runs, d₁) ∧
      (∀ q, headerSize ≤ q → q < old.size → (∀ r ∈ runs, ¬ r.Covers q) →
        B.data.toList[q]? = old.data.toList[q]?) ∧
      ∃ p ids, Arranged old runs d₁ p ids ∧
        ∀ q, q < B.size → (∃ r ∈ runs, r.Covers q) →
          (∀ id ∈ ids, ∀ s, p.span? id = some s → ¬ s.Covers q) → B.data.toList[q]? = some 0 := by
  obtain ⟨runs, d₁, hanalyze, ⟨hone, hw⟩ | ⟨hne, hw⟩⟩ := write_eq_ok h
  · obtain ⟨hold, -, -⟩ := Gaps.analyze_runs hanalyze
    obtain ⟨d₂, p₀, items, length, hplan, hpack, hclears⟩ := Compact.write_clears hw
    refine ⟨runs, d₁, hanalyze, fun q hheader hlt hruns => ?_, _, _, .compact hone hplan hpack,
      fun q hlt ⟨r, hr, hcov⟩ hspans => ?_⟩
    · refine absurd ⟨hheader, ?_⟩ (hruns _ (hone ▸ List.mem_singleton_self _))
      simp only [Extent.stop]
      omega
    · rw [hone, List.mem_singleton] at hr
      subst hr
      exact hclears q hcov.1 hlt hspans
  · obtain ⟨d₂, p₀, p, length, hplan, hplace, hclears⟩ := writeGaps_clears hanalyze hw
    refine ⟨runs, d₁, hanalyze, fun q hheader hlt hruns => ?_, _, _, .gaps hne hplan hplace,
      hclears⟩
    obtain ⟨b, hb⟩ : ∃ b, old.data.toList[q]? = some b :=
      ⟨_, List.getElem?_eq_getElem (by simpa using hlt)⟩
    rw [hb]
    exact holds_singleton_iff.1 (writeGaps_keeps hanalyze hw (holds_singleton_iff.2 hb) hheader
      Nat.one_pos fun r hr => (Extent.apart_one_iff.2 (hruns r hr)).symm)

/-- A root of one entry rewritten as an empty root: the run of the old table is reused, the bytes
the shorter table leaves are cleared, and the two bytes after the table, which no run meets, stay. -/
theorem write_frame_shrunkRoot :
    write .little ⟨#[0x49, 0x49, 0x2A, 0, 8, 0, 0, 0, 1, 0, 0, 1, 3, 0, 1, 0, 0, 0, 5, 0, 0, 0, 0, 0, 0, 0,
        0xAB, 0xCD]⟩ []
        ⟨.little, [⟨.root, .little, [], none⟩]⟩ =
      .ok ⟨#[0x49, 0x49, 0x2A, 0, 8, 0, 0, 0, 0, 0, 0, 0, 0, 0, 0, 0, 0, 0, 0, 0, 0, 0, 0, 0, 0, 0,
        0xAB, 0xCD]⟩ ∧
    ∃ runs d₁, Gaps.analyze ⟨#[0x49, 0x49, 0x2A, 0, 8, 0, 0, 0, 1, 0, 0, 1, 3, 0, 1, 0, 0, 0, 5, 0, 0, 0, 0, 0, 0, 0,
        0xAB, 0xCD]⟩ .little
        ⟨.little, [⟨.root, .little, [], none⟩]⟩ [] = .ok (runs, d₁) ∧
      (∀ q, headerSize ≤ q → q < ByteArray.size ⟨#[0x49, 0x49, 0x2A, 0, 8, 0, 0, 0, 1, 0, 0, 1, 3, 0, 1, 0, 0, 0, 5, 0, 0, 0, 0, 0, 0, 0,
        0xAB, 0xCD]⟩ →
        (∀ r ∈ runs, ¬ r.Covers q) →
        (ByteArray.data ⟨#[0x49, 0x49, 0x2A, 0, 8, 0, 0, 0, 0, 0, 0, 0, 0, 0, 0, 0, 0, 0, 0, 0, 0, 0, 0, 0, 0, 0,
        0xAB, 0xCD]⟩).toList[q]? =
          (ByteArray.data ⟨#[0x49, 0x49, 0x2A, 0, 8, 0, 0, 0, 1, 0, 0, 1, 3, 0, 1, 0, 0, 0, 5, 0, 0, 0, 0, 0, 0, 0,
        0xAB, 0xCD]⟩).toList[q]?) ∧
      ∃ p ids, Arranged ⟨#[0x49, 0x49, 0x2A, 0, 8, 0, 0, 0, 1, 0, 0, 1, 3, 0, 1, 0, 0, 0, 5, 0, 0, 0, 0, 0, 0, 0,
        0xAB, 0xCD]⟩ runs d₁ p ids ∧
        ∀ q, q < ByteArray.size ⟨#[0x49, 0x49, 0x2A, 0, 8, 0, 0, 0, 0, 0, 0, 0, 0, 0, 0, 0, 0, 0, 0, 0, 0, 0, 0, 0, 0, 0,
        0xAB, 0xCD]⟩ → (∃ r ∈ runs, r.Covers q) →
          (∀ id ∈ ids, ∀ s, p.span? id = some s → ¬ s.Covers q) →
          (ByteArray.data ⟨#[0x49, 0x49, 0x2A, 0, 8, 0, 0, 0, 0, 0, 0, 0, 0, 0, 0, 0, 0, 0, 0, 0, 0, 0, 0, 0, 0, 0,
        0xAB, 0xCD]⟩).toList[q]? = some 0 := by
  have hw : write .little ⟨#[0x49, 0x49, 0x2A, 0, 8, 0, 0, 0, 1, 0, 0, 1, 3, 0, 1, 0, 0, 0, 5, 0, 0, 0, 0, 0, 0, 0,
        0xAB, 0xCD]⟩ []
      ⟨.little, [⟨.root, .little, [], none⟩]⟩ = .ok ⟨#[0x49, 0x49, 0x2A, 0, 8, 0, 0, 0, 0, 0, 0, 0, 0, 0, 0, 0, 0, 0, 0, 0, 0, 0, 0, 0, 0, 0,
        0xAB, 0xCD]⟩ := by
    decide +kernel
  exact ⟨hw, write_frame hw⟩

end Write

end Reuse

end TiffLayout
