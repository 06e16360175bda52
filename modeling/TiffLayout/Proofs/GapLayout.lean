import TiffLayout.Proofs.Placement
import TiffLayout.Proofs.Emission
/-! Writing into the gaps of an old segment. The items written are exactly those the plan has
not placed in advance; placement puts each at an even offset after the header, inside a gap
left after trimming or after the trimmed tail, no two overlapping, and writing them never runs
past the end of the new segment. -/
namespace TiffLayout

namespace Reuse

theorem mem_writtenIds {p : Plan} {frozen : List Nat} {id : Nat} :
    id ∈ writtenIds p frozen ↔
      ∃ it, p.items[id]? = some it ∧ ∀ o, it.offset = some o → o ∉ frozen := by
  simp only [writtenIds, List.mem_map, List.mem_filter]
  constructor
  · rintro ⟨⟨it, j⟩, ⟨hmem, hkeep⟩, rfl⟩
    refine ⟨it, List.mk_mem_zipIdx_iff_getElem?.1 hmem, fun o ho => ?_⟩
    simpa [ho] using hkeep
  · rintro ⟨it, hit, hkeep⟩
    refine ⟨(it, id), ⟨List.mk_mem_zipIdx_iff_getElem?.2 hit, ?_⟩, rfl⟩
    cases ho : it.offset with
    | none => rfl
    | some o => simpa using hkeep o ho

theorem writtenIds_nodup (p : Plan) (frozen : List Nat) : (writtenIds p frozen).Nodup := by
  unfold writtenIds
  refine (List.nodup_range' (s := 0) (n := p.items.length) 1).sublist ?_
  rw [← List.zipIdx_map_snd]
  exact List.filter_sublist.map _

/-- Every item to be written waits unplaced: the plan places in advance only items at
offsets its draft keeps, which are the offsets left out. -/
theorem writtenIds_unplaced {d d' : Draft} {p : Plan} (hplan : d.plan = (d', .ok p)) :
    ∀ id ∈ writtenIds p d.keptOffsets, ∃ it, p.items[id]? = some it ∧ it.offset = none := by
  intro id hid
  obtain ⟨it, hit, hkeep⟩ := mem_writtenIds.1 hid
  refine ⟨it, hit, ?_⟩
  cases ho : it.offset with
  | none => rfl
  | some o =>
    have hkept := (Draft.plan_items hplan it (List.mem_of_getElem? hit)).2 o ho
    exact absurd hkept (hkeep o ho)

/-- The canvas is as long as asked, and fails only by arithmetic. -/
theorem canvas_spec {old : ByteArray} {runs : List Extent} {length : Nat} :
    (∀ buf, canvas old runs length = .ok buf → buf.size = length) ∧
    (∀ e, canvas old runs length = .error e → ∃ a, e = .arith a) := by
  unfold canvas
  rcases hsize : checked (Width.size.narrow length) with e | size
  · constructor
    · intro buf h
      simp only [error_bind, reduceCtorEq] at h
    · intro e' h
      simp only [error_bind, Except.error.injEq] at h
      exact h ▸ checked_eq_error hsize
  obtain ⟨-, rfl⟩ := Width.narrow_ok_iff.1 (checked_eq_ok.1 hsize)
  simp only [ok_bind]
  apply foldlM_induction (fun (buf : ByteArray) (_ : List Extent) => buf.size = size)
    (fun e => ∃ a, e = LayoutError.arith a)
  · intro buf e l hbuf
    refine ⟨fun buf' h => ?_, fun e' h => ?_⟩
    · obtain ⟨stop, -, h⟩ := bind_eq_ok.1 h
      rw [← Except.ok.inj h, Buffer.size_clear]
      exact hbuf
    · rcases bind_eq_error.1 h with h | ⟨_, -, h⟩
      · exact checked_eq_error h
      · cases h
  · simp

/-- Writing into the gaps of an analysed segment, once its draft has a plan, never runs past
the end of the new segment: every item written fits the room after its offset. -/
theorem writeGaps_ne_overrun {old : ByteArray} {o : ByteOrder} {d d₁ d₂ : Draft}
    {frozen : List Tag} {runs : List Extent} {p : Plan}
    (hanalyze : Gaps.analyze old o d frozen = .ok (runs, d₁)) (hplan : d₁.plan = (d₂, .ok p)) :
    writeGaps o old runs d₁ ≠ .error .overrun := by
  obtain ⟨hsize, hinside, hsep⟩ := Gaps.analyze_runs hanalyze
  have hspec := place_spec hinside hsep hsize (writtenIds_nodup p _) (writtenIds_unplaced hplan)
  intro h
  unfold writeGaps at h
  rw [hplan] at h
  simp only [ok_bind] at h
  rcases hplace : place runs old.size p (writtenIds p d₁.keptOffsets) with e | ⟨p', length⟩
  · rw [hplace, error_bind] at h
    obtain ⟨a, ha⟩ := hspec.2 _ hplace
    rw [Except.error.inj h] at ha
    cases ha
  obtain ⟨pool, tail, -, -, hlayout⟩ := hspec.1 p' length hplace
  rw [hplace, ok_bind] at h
  dsimp only at h
  rcases hpatch : p'.patch d₂ with ⟨d₃, patched⟩
  obtain ⟨hres, hpatched⟩ := Plan.patch_resized hpatch
  rw [hpatch] at h
  dsimp only at h
  rcases patched with e | ⟨⟩
  · rw [error_bind] at h
    exact hpatched (congrArg Except.error (Except.error.inj h))
  rw [ok_bind] at h
  rcases hcanvas : canvas old runs length with e | buf
  · rw [hcanvas, error_bind] at h
    obtain ⟨a, ha⟩ := canvas_spec.2 _ hcanvas
    rw [Except.error.inj h] at ha
    cases ha
  have hbuf := canvas_spec.1 buf hcanvas
  rw [hcanvas, ok_bind] at h
  rcases hroot : p'.rootOffset with e | root
  · rw [hroot, error_bind] at h
    exact Plan.dirOffset_ne_overrun p' p'.root
      (hroot.trans (congrArg Except.error (Except.error.inj h)))
  rw [hroot, ok_bind] at h
  rcases hhead : writeHeader buf o root with e | buf'
  · rw [hhead, error_bind] at h
    exact writeHeader_ne_overrun (by rw [hbuf]; exact hlayout.header)
      (hhead.trans (congrArg Except.error (Except.error.inj h)))
  rw [hhead, ok_bind] at h
  refine Plan.writeItems_ne_overrun ((size_writeHeader hhead).trans hbuf) ?_ h
  intro id hid it hit off hoff
  obtain ⟨it₀, r, hit₀, hplaced, hlen, -, hstop⟩ := hlayout.placed id hid
  rw [hplaced, Option.some.injEq] at hit
  subst hit
  have hsized := (Draft.plan_items hplan it₀ (List.mem_of_getElem? hit₀)).1
  rw [Option.some.injEq] at hoff
  subst hoff
  exact ⟨by simpa [Extent.stop, hlen] using hstop, Plan.pieces_emits hsized hres⟩

/-- Writing into the gaps of an analysed segment whose draft has a plan: placing the items
to be written fails only by arithmetic; once they are placed, each lies at an even offset after
the header, inside a gap that trimming left in the pool or at or after the trimmed tail, and
before the new length, with no two overlapping; and no item is written past the end. -/
theorem writeGaps_layout {old : ByteArray} {o : ByteOrder} {d d₁ d₂ : Draft}
    {frozen : List Tag} {runs : List Extent} {p : Plan}
    (hanalyze : Gaps.analyze old o d frozen = .ok (runs, d₁)) (hplan : d₁.plan = (d₂, .ok p)) :
    (∀ e, place runs old.size p (writtenIds p d₁.keptOffsets) = .error e → ∃ a, e = .arith a) ∧
    (∀ p' length, place runs old.size p (writtenIds p d₁.keptOffsets) = .ok (p', length) →
      ∃ pool tail, trimTail (Extent.sortByOffset runs).reverse old.size = .ok (pool, tail) ∧
        Layout pool tail length p p' (writtenIds p d₁.keptOffsets)) ∧
    writeGaps o old runs d₁ ≠ .error .overrun := by
  obtain ⟨hsize, hinside, hsep⟩ := Gaps.analyze_runs hanalyze
  have hspec := place_spec hinside hsep hsize (writtenIds_nodup p _) (writtenIds_unplaced hplan)
  refine ⟨hspec.2, fun p' length h => ?_, writeGaps_ne_overrun hanalyze hplan⟩
  obtain ⟨pool, tail, htrim, -, hlayout⟩ := hspec.1 p' length h
  exact ⟨pool, tail, htrim, hlayout⟩

/-- An old segment whose root table and first value make one run and whose second value, twelve
bytes further on, makes another at its end, rewritten from a root with two values through the
gaps: the table fills the start of the first run, the fourteen-byte value does not fit the ten
bytes left there and goes to the trimmed tail at 60, and the ten-byte value takes those ten
bytes. -/
theorem writeGaps_layout_twoRuns :
    Gaps.analyze ⟨#[73, 73, 42, 0, 8, 0, 0, 0, 2, 0, 14, 1, 2, 0, 10, 0, 0, 0, 38, 0, 0, 0, 49, 1, 2, 0, 10, 0,
      0, 0, 60, 0, 0, 0, 0, 0, 0, 0, 48, 49, 50, 51, 52, 53, 54, 55, 56, 57, 0, 0, 0, 0, 0, 0, 0, 0,
      0, 0, 0, 0, 65, 66, 67, 68, 69, 70, 71, 72, 73, 74]⟩ .little
      ⟨.little, [⟨.root, .little, [.undefined ⟨270⟩ ⟨#[1, 2, 3, 4, 5, 6, 7, 8, 9, 10]⟩,
      .undefined ⟨305⟩ ⟨#[1, 2, 3, 4, 5, 6, 7, 8, 9, 10, 11, 12, 13, 14]⟩], none⟩]⟩ [] =
      .ok ([⟨8, 40⟩, ⟨60, 10⟩], ⟨.little, [⟨.root, .little, [.undefined ⟨270⟩ ⟨#[1, 2, 3, 4, 5, 6, 7, 8, 9, 10]⟩,
      .undefined ⟨305⟩ ⟨#[1, 2, 3, 4, 5, 6, 7, 8, 9, 10, 11, 12, 13, 14]⟩], none⟩]⟩) ∧
    Draft.plan ⟨.little, [⟨.root, .little, [.undefined ⟨270⟩ ⟨#[1, 2, 3, 4, 5, 6, 7, 8, 9, 10]⟩,
      .undefined ⟨305⟩ ⟨#[1, 2, 3, 4, 5, 6, 7, 8, 9, 10, 11, 12, 13, 14]⟩], none⟩]⟩ =
      (⟨.little, [⟨.root, .little, [.undefined ⟨270⟩ ⟨#[1, 2, 3, 4, 5, 6, 7, 8, 9, 10]⟩,
      .undefined ⟨305⟩ ⟨#[1, 2, 3, 4, 5, 6, 7, 8, 9, 10, 11, 12, 13, 14]⟩], none⟩]⟩,
        .ok ⟨.little, [⟨.table 0, 30, none⟩, ⟨.value 0 0, 10, none⟩, ⟨.value 0 1, 14, none⟩], [], [], 0⟩) ∧
    Reuse.write .little ⟨#[73, 73, 42, 0, 8, 0, 0, 0, 2, 0, 14, 1, 2, 0, 10, 0, 0, 0, 38, 0, 0, 0, 49, 1, 2, 0, 10, 0,
      0, 0, 60, 0, 0, 0, 0, 0, 0, 0, 48, 49, 50, 51, 52, 53, 54, 55, 56, 57, 0, 0, 0, 0, 0, 0, 0, 0,
      0, 0, 0, 0, 65, 66, 67, 68, 69, 70, 71, 72, 73, 74]⟩ []
      ⟨.little, [⟨.root, .little, [.undefined ⟨270⟩ ⟨#[1, 2, 3, 4, 5, 6, 7, 8, 9, 10]⟩,
      .undefined ⟨305⟩ ⟨#[1, 2, 3, 4, 5, 6, 7, 8, 9, 10, 11, 12, 13, 14]⟩], none⟩]⟩ =
      writeGaps .little ⟨#[73, 73, 42, 0, 8, 0, 0, 0, 2, 0, 14, 1, 2, 0, 10, 0, 0, 0, 38, 0, 0, 0, 49, 1, 2, 0, 10, 0,
      0, 0, 60, 0, 0, 0, 0, 0, 0, 0, 48, 49, 50, 51, 52, 53, 54, 55, 56, 57, 0, 0, 0, 0, 0, 0, 0, 0,
      0, 0, 0, 0, 65, 66, 67, 68, 69, 70, 71, 72, 73, 74]⟩ [⟨8, 40⟩, ⟨60, 10⟩]
      ⟨.little, [⟨.root, .little, [.undefined ⟨270⟩ ⟨#[1, 2, 3, 4, 5, 6, 7, 8, 9, 10]⟩,
      .undefined ⟨305⟩ ⟨#[1, 2, 3, 4, 5, 6, 7, 8, 9, 10, 11, 12, 13, 14]⟩], none⟩]⟩ ∧
    place [⟨8, 40⟩, ⟨60, 10⟩] 70 ⟨.little, [⟨.table 0, 30, none⟩, ⟨.value 0 0, 10, none⟩, ⟨.value 0 1, 14, none⟩], [], [], 0⟩ [0, 1, 2] =
      .ok (⟨.little, [⟨.table 0, 30, some 8⟩, ⟨.value 0 0, 10, some 38⟩, ⟨.value 0 1, 14, some 60⟩], [], [], 0⟩, 74) ∧
    (∀ e, place [⟨8, 40⟩, ⟨60, 10⟩] 70 ⟨.little, [⟨.table 0, 30, none⟩, ⟨.value 0 0, 10, none⟩, ⟨.value 0 1, 14, none⟩], [], [], 0⟩ [0, 1, 2] = .error e → ∃ a, e = .arith a) ∧
    (∀ p' length, place [⟨8, 40⟩, ⟨60, 10⟩] 70 ⟨.little, [⟨.table 0, 30, none⟩, ⟨.value 0 0, 10, none⟩, ⟨.value 0 1, 14, none⟩], [], [], 0⟩ [0, 1, 2] = .ok (p', length) →
      ∃ pool tail, trimTail (Extent.sortByOffset [⟨8, 40⟩, ⟨60, 10⟩]).reverse 70 = .ok (pool, tail) ∧
        Layout pool tail length ⟨.little, [⟨.table 0, 30, none⟩, ⟨.value 0 0, 10, none⟩, ⟨.value 0 1, 14, none⟩], [], [], 0⟩ p' [0, 1, 2]) ∧
    writeGaps .little ⟨#[73, 73, 42, 0, 8, 0, 0, 0, 2, 0, 14, 1, 2, 0, 10, 0, 0, 0, 38, 0, 0, 0, 49, 1, 2, 0, 10, 0,
      0, 0, 60, 0, 0, 0, 0, 0, 0, 0, 48, 49, 50, 51, 52, 53, 54, 55, 56, 57, 0, 0, 0, 0, 0, 0, 0, 0,
      0, 0, 0, 0, 65, 66, 67, 68, 69, 70, 71, 72, 73, 74]⟩ [⟨8, 40⟩, ⟨60, 10⟩]
      ⟨.little, [⟨.root, .little, [.undefined ⟨270⟩ ⟨#[1, 2, 3, 4, 5, 6, 7, 8, 9, 10]⟩,
      .undefined ⟨305⟩ ⟨#[1, 2, 3, 4, 5, 6, 7, 8, 9, 10, 11, 12, 13, 14]⟩], none⟩]⟩ ≠ .error .overrun := by
  have hcoalesce : Extent.coalesce [⟨8, 30⟩, ⟨38, 10⟩, ⟨60, 10⟩] = .ok [⟨8, 40⟩, ⟨60, 10⟩] := by
    simp [Extent.coalesce, Extent.sortByOffset, List.mergeSort, Extent.coalesceFrom, Extent.end?,
      Extent.span, Extent.tolerance, Width.add, Width.narrow, Width.bound, bind, Except.bind, pure,
      Except.pure]
  -- the old root table at 8, its values at 38 and 60
  have hanalyze : Gaps.analyze ⟨#[73, 73, 42, 0, 8, 0, 0, 0, 2, 0, 14, 1, 2, 0, 10, 0, 0, 0, 38, 0, 0, 0,
      49, 1, 2, 0, 10, 0, 0, 0, 60, 0, 0, 0, 0, 0, 0, 0, 48, 49, 50, 51, 52, 53, 54, 55, 56, 57, 0, 0,
      0, 0, 0, 0, 0, 0, 0, 0, 0, 0, 65, 66, 67, 68, 69, 70, 71, 72, 73, 74]⟩ .little
      ⟨.little, [⟨.root, .little, [.undefined ⟨270⟩ ⟨#[1, 2, 3, 4, 5, 6, 7, 8, 9, 10]⟩,
      .undefined ⟨305⟩ ⟨#[1, 2, 3, 4, 5, 6, 7, 8, 9, 10, 11, 12, 13, 14]⟩], none⟩]⟩ [] =
      .ok ([⟨8, 40⟩, ⟨60, 10⟩], ⟨.little, [⟨.root, .little, [.undefined ⟨270⟩ ⟨#[1, 2, 3, 4, 5, 6, 7, 8, 9, 10]⟩,
      .undefined ⟨305⟩ ⟨#[1, 2, 3, 4, 5, 6, 7, 8, 9, 10, 11, 12, 13, 14]⟩], none⟩]⟩) :=
    Gaps.analyze_of_read hcoalesce (by rfl)
  have hsyn : Draft.synthesize ⟨.little, [⟨.root, .little, [.undefined ⟨270⟩ ⟨#[1, 2, 3, 4, 5, 6, 7, 8, 9, 10]⟩,
      .undefined ⟨305⟩ ⟨#[1, 2, 3, 4, 5, 6, 7, 8, 9, 10, 11, 12, 13, 14]⟩], none⟩]⟩ =
      .ok ⟨.little, [⟨.root, .little, [.undefined ⟨270⟩ ⟨#[1, 2, 3, 4, 5, 6, 7, 8, 9, 10]⟩,
      .undefined ⟨305⟩ ⟨#[1, 2, 3, 4, 5, 6, 7, 8, 9, 10, 11, 12, 13, 14]⟩], none⟩]⟩ := by
    simp [Draft.synthesize, Directory.synthesize, Directory.sortFields, List.mergeSort, structuralTags,
      Directory.removeField, Directory.takeField, Directory.addPointerField, DirectoryKind.parent?,
      Field.undefined, Field.raw, Tag.exifPointer, Tag.gpsPointer, Tag.interopPointer,
      Tag.thumbnailOffset, Tag.thumbnailLength, pure, Except.pure]
  have hplan : Draft.plan ⟨.little, [⟨.root, .little, [.undefined ⟨270⟩ ⟨#[1, 2, 3, 4, 5, 6, 7, 8, 9, 10]⟩,
      .undefined ⟨305⟩ ⟨#[1, 2, 3, 4, 5, 6, 7, 8, 9, 10, 11, 12, 13, 14]⟩], none⟩]⟩ =
      (⟨.little, [⟨.root, .little, [.undefined ⟨270⟩ ⟨#[1, 2, 3, 4, 5, 6, 7, 8, 9, 10]⟩,
      .undefined ⟨305⟩ ⟨#[1, 2, 3, 4, 5, 6, 7, 8, 9, 10, 11, 12, 13, 14]⟩], none⟩]⟩,
        .ok ⟨.little, [⟨.table 0, 30, none⟩, ⟨.value 0 0, 10, none⟩, ⟨.value 0 1, 14, none⟩], [], [], 0⟩) := by
    rw [Draft.plan_eq_of_closed (show _ = some 0 by decide) (by decide), Draft.synthesizeIn_of_ok hsyn,
      hsyn, ok_bind]
    rfl
  have hplace : place [⟨8, 40⟩, ⟨60, 10⟩] 70 ⟨.little, [⟨.table 0, 30, none⟩, ⟨.value 0 0, 10, none⟩, ⟨.value 0 1, 14, none⟩], [], [], 0⟩ [0, 1, 2] =
      .ok (⟨.little, [⟨.table 0, 30, some 8⟩, ⟨.value 0 0, 10, some 38⟩, ⟨.value 0 1, 14, some 60⟩], [], [], 0⟩, 74) := by
    simp [place, trimTail, Extent.sortByOffset, List.mergeSort, itemLength, placeOne, bestFit,
      aligned, resort, Plan.place, Item.place, Extent.end?, checked, Width.add, Width.sub,
      Width.alignEven, Width.bound, Except.mapError, bind, Except.bind, pure, Except.pure, headerSize]
  have hwrite : Reuse.write .little ⟨#[73, 73, 42, 0, 8, 0, 0, 0, 2, 0, 14, 1, 2, 0, 10, 0, 0, 0, 38, 0, 0, 0, 49, 1, 2, 0, 10, 0,
      0, 0, 60, 0, 0, 0, 0, 0, 0, 0, 48, 49, 50, 51, 52, 53, 54, 55, 56, 57, 0, 0, 0, 0, 0, 0, 0, 0,
      0, 0, 0, 0, 65, 66, 67, 68, 69, 70, 71, 72, 73, 74]⟩ []
      ⟨.little, [⟨.root, .little, [.undefined ⟨270⟩ ⟨#[1, 2, 3, 4, 5, 6, 7, 8, 9, 10]⟩,
      .undefined ⟨305⟩ ⟨#[1, 2, 3, 4, 5, 6, 7, 8, 9, 10, 11, 12, 13, 14]⟩], none⟩]⟩ =
      writeGaps .little ⟨#[73, 73, 42, 0, 8, 0, 0, 0, 2, 0, 14, 1, 2, 0, 10, 0, 0, 0, 38, 0, 0, 0, 49, 1, 2, 0, 10, 0,
      0, 0, 60, 0, 0, 0, 0, 0, 0, 0, 48, 49, 50, 51, 52, 53, 54, 55, 56, 57, 0, 0, 0, 0, 0, 0, 0, 0,
      0, 0, 0, 0, 65, 66, 67, 68, 69, 70, 71, 72, 73, 74]⟩ [⟨8, 40⟩, ⟨60, 10⟩]
        ⟨.little, [⟨.root, .little, [.undefined ⟨270⟩ ⟨#[1, 2, 3, 4, 5, 6, 7, 8, 9, 10]⟩,
      .undefined ⟨305⟩ ⟨#[1, 2, 3, 4, 5, 6, 7, 8, 9, 10, 11, 12, 13, 14]⟩], none⟩]⟩ := by
    rw [Reuse.write, if_neg (by decide), hanalyze]
    rfl
  exact ⟨hanalyze, hplan, hwrite, hplace, writeGaps_layout hanalyze hplan⟩

end Reuse

end TiffLayout
