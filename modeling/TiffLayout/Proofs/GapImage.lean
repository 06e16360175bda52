import TiffLayout.Proofs.Analysis
import TiffLayout.Proofs.GapLayout
import TiffLayout.Proofs.Compact
/-! Writing into the gaps of an old segment leaves an image of the placed plan, with every value
kept in place untouched at its offset. -/
namespace TiffLayout

open Buffer Emission

namespace Buffer

/-- Clearing a range keeps the bytes apart from it. -/
theorem Holds.clear_apart {buf : ByteArray} {o start stop : Nat} {bs : List UInt8}
    (h : Holds buf o bs) (hle : start ≤ stop) (hapart : stop ≤ o ∨ o + bs.length ≤ start) :
    Holds (clear buf start stop) o bs := by
  have hbound := h.bound
  unfold clear
  apply h.put_apart
  rw [List.length_replicate]
  omega

end Buffer

namespace Reuse

/-- Trimming keeps the tail after a non-empty range that lies before it and apart from every
gap: a gap that ends at the tail lies after the range, so the tail moves down no further than the
range's end. -/
theorem trimTail_above {v : Extent} (hv : 0 < v.length) {es : List Extent} :
    ∀ {tail tail' : Nat} {pool : List Extent}, trimTail es tail = .ok (pool, tail') →
      (∀ e ∈ es, v.Apart e) → v.stop ≤ tail → v.stop ≤ tail' := by
  induction es with
  | nil =>
    intro tail tail' pool h _ hle
    simp only [trimTail, Except.ok.injEq, Prod.mk.injEq] at h
    rw [← h.2]
    exact hle
  | cons e es ih =>
    intro tail tail' pool h hes hle
    obtain ⟨stop, hstop, h⟩ := bind_eq_ok.1 h
    obtain ⟨-, rfl⟩ := Extent.end?_eq_ok.1 (checked_eq_ok.1 hstop)
    split at h
    · rename_i hend
      obtain ⟨tail₁, htail₁, h⟩ := bind_eq_ok.1 h
      obtain ⟨-, rfl⟩ := Width.sub_ok_iff.1 (checked_eq_ok.1 htail₁)
      have happ := hes e List.mem_cons_self
      apply ih h fun e' he' => hes e' (List.mem_cons_of_mem e he')
      unfold Extent.Apart Extent.stop at happ
      unfold Extent.stop at hend hle ⊢
      omega
    · simp only [Except.ok.injEq, Prod.mk.injEq] at h
      rw [← h.2]
      exact hle

/-- The canvas keeps the old bytes that no run meets, as far as the new segment reaches. -/
theorem canvas_holds {old buf : ByteArray} {runs : List Extent} {length q : Nat}
    {bs : List UInt8} (h : canvas old runs length = .ok buf) (hold : Holds old q bs)
    (hlen : q + bs.length ≤ length) (hruns : ∀ r ∈ runs, Extent.Apart ⟨q, bs.length⟩ r) :
    Holds buf q bs := by
  unfold canvas at h
  obtain ⟨size, hsize, h⟩ := bind_eq_ok.1 h
  obtain ⟨-, hsz⟩ := Width.narrow_ok_iff.1 (checked_eq_ok.1 hsize)
  rw [hsz] at h
  have hcopy : Holds (put (zeros length) 0 (old.extract 0 (min old.size length)).data.toList) q bs := by
    have hbound := hold.bound
    refine ⟨by rw [size_put, size_zeros]; exact hlen, fun i hi => ?_⟩
    rw [getElem?_put, if_pos ⟨Nat.zero_le _, by simp; omega, by simp; omega⟩, ← hold.get i hi]
    simp only [ByteArray.data_extract, Array.toList_extract, List.extract_eq_take_drop,
      List.drop_zero, Nat.sub_zero, Nat.sub_zero]
    rw [List.getElem?_take_of_lt (by omega)]
  have hstep : ∀ (b : ByteArray) (e : Extent) (l : List Extent),
      ((∀ r ∈ e :: l, Extent.Apart ⟨q, bs.length⟩ r) ∧ Holds b q bs) →
      (∀ b', (do let stop ← checked e.end?; pure (Buffer.clear b e.offset stop)) = .ok b' →
        (∀ r ∈ l, Extent.Apart ⟨q, bs.length⟩ r) ∧ Holds b' q bs) ∧
      (∀ err, (do let stop ← checked e.end?; pure (Buffer.clear b e.offset stop)) = .error err →
        True) := by
    intro b e l ⟨hl, hb⟩
    refine ⟨fun b' hb' => ⟨fun r hr => hl r (List.mem_cons_of_mem e hr), ?_⟩, fun _ _ => trivial⟩
    obtain ⟨stop, hstop, hb'⟩ := bind_eq_ok.1 hb'
    obtain ⟨-, rfl⟩ := Extent.end?_eq_ok.1 (checked_eq_ok.1 hstop)
    rw [← Except.ok.inj hb']
    apply hb.clear_apart (Nat.le_add_right _ _)
    have happ := hl e List.mem_cons_self
    unfold Extent.Apart Extent.stop at happ
    dsimp only at happ
    omega
  exact ((foldlM_induction (f := fun (b : ByteArray) (e : Extent) => do
      let stop ← checked e.end?
      pure (Buffer.clear b e.offset stop))
    (fun b l => (∀ r ∈ l, Extent.Apart ⟨q, bs.length⟩ r) ∧ Holds b q bs) (fun _ => True) hstep
    ⟨hruns, hcopy⟩).1 buf h).2

/-- One placement changes the items of the plan alone. -/
theorem placeOne_frame {s s' : Placing} {item : Nat × Nat} (h : placeOne s item = .ok s') :
    ∃ items, s'.plan = { s.plan with items } := by
  obtain ⟨id, length⟩ := item
  rcases placeOne_cases h with ⟨-, start, -, plan, hplace, rfl⟩ |
      ⟨i, g, start, usable, -, -, plan, hplace, rfl⟩
  · obtain ⟨it, -, -, -, rfl⟩ := Plan.place_eq_ok hplace
    exact ⟨_, rfl⟩
  · obtain ⟨it, -, -, -, rfl⟩ := Plan.place_eq_ok hplace
    split <;> exact ⟨_, rfl⟩

/-- Placement changes the items of the plan alone. -/
theorem place_frame {runs : List Extent} {size length : Nat} {p p' : Plan} {ids : List Nat}
    (h : place runs size p ids = .ok (p', length)) : ∃ items, p' = { p with items } := by
  unfold place at h
  obtain ⟨⟨pool, tail⟩, -, h⟩ := bind_eq_ok.1 h
  obtain ⟨sized, -, h⟩ := bind_eq_ok.1 h
  obtain ⟨s, hs, h⟩ := bind_eq_ok.1 h
  simp only [pure, Except.pure, Except.ok.injEq, Prod.mk.injEq] at h
  rw [← h.1]
  have hstep : ∀ (b : Placing) (a : Nat × Nat) (l : List (Nat × Nat)),
      (∃ items, b.plan = { p with items }) →
      (∀ b', placeOne b a = .ok b' → ∃ items, b'.plan = { p with items }) ∧
        (∀ e, placeOne b a = .error e → True) := by
    intro b a l ⟨items, hb⟩
    refine ⟨fun b' hb' => ?_, fun _ _ => trivial⟩
    obtain ⟨items', h'⟩ := placeOne_frame hb'
    exact ⟨items', by rw [h', hb]⟩
  exact (foldlM_induction (f := placeOne) (fun b _ => ∃ items, b.plan = { p with items })
    (fun _ => True) hstep ⟨p.items, rfl⟩).1 s hs

section Layout

variable {pool : List Extent} {tail length : Nat} {p p' : Plan} {ids : List Nat}

/-- An item placed has a range that its layout allows. -/
theorem Layout.span (hl : Layout pool tail length p p' ids) {id : Nat} (hid : id ∈ ids)
    {r : Extent} (hr : p'.span? id = some r) : Allowed pool tail r ∧ r.stop ≤ length := by
  obtain ⟨it, r', -, hit', hlen, hallowed, hstop⟩ := hl.placed id hid
  rw [span?_of_items hit', Option.some.injEq, ← hlen] at hr
  subst hr
  exact ⟨hallowed, hstop⟩

/-- Every item after placement is an item of the plan placed, its offset perhaps set. -/
theorem Layout.source (hl : Layout pool tail length p p' ids) {id : Nat} {it : Item}
    (hit : p'.items[id]? = some it) :
    ∃ it₀ off, p.items[id]? = some it₀ ∧ it = { it₀ with offset := off } := by
  by_cases hid : id ∈ ids
  · obtain ⟨it₀, r, hit₀, hit', -⟩ := hl.placed id hid
    rw [hit, Option.some.injEq] at hit'
    exact ⟨it₀, _, hit₀, hit'⟩
  · rw [hl.unchanged id hid] at hit
    exact ⟨it, it.offset, hit, rfl⟩

/-- Placement keeps the parts of a plan and all of it but the items' offsets. -/
theorem Layout.placed_plan (hl : Layout pool tail length p p' ids)
    (hframe : ∃ items, p' = { p with items }) : p.Placed p' := by
  obtain ⟨items, rfl⟩ := hframe
  refine ⟨rfl, rfl, rfl, rfl, List.ext_getElem? fun j => ?_⟩
  rw [List.getElem?_map, List.getElem?_map]
  by_cases hj : j ∈ ids
  · obtain ⟨it, r, hit, hit', -⟩ := hl.placed j hj
    rw [hit, hit']
    rfl
  · rw [hl.unchanged j hj]

end Layout

/-- The steps of a write into the gaps of an old segment that succeeds. -/
theorem writeGaps_eq_ok {o : ByteOrder} {old : ByteArray} {runs : List Extent} {d : Draft}
    {B : ByteArray} (h : writeGaps o old runs d = .ok B) :
    ∃ d₂ p₀ p length d₃ buf root buf', d.plan = (d₂, .ok p₀) ∧
      place runs old.size p₀ (writtenIds p₀ d.keptOffsets) = .ok (p, length) ∧
      p.patch d₂ = (d₃, .ok ()) ∧ canvas old runs length = .ok buf ∧ p.rootOffset = .ok root ∧
      writeHeader buf o root = .ok buf' ∧ p.writeItems d₃ (writtenIds p₀ d.keptOffsets) buf' = .ok B := by
  unfold writeGaps at h
  generalize hplan : d.plan = r at h
  obtain ⟨d₂, planned⟩ := r
  dsimp only at h
  obtain ⟨p₀, hp₀, h₁⟩ := bind_eq_ok.1 h
  subst hp₀
  obtain ⟨⟨p, length⟩, hplace, h₂⟩ := bind_eq_ok.1 h₁
  rcases hpatch : p.patch d₂ with ⟨d₃, patched⟩
  rw [hpatch] at h₂
  dsimp only at h₂
  obtain ⟨⟨⟩, hpatched, h₃⟩ := bind_eq_ok.1 h₂
  rw [hpatched] at hpatch
  obtain ⟨buf, hbuf, h₄⟩ := bind_eq_ok.1 h₃
  obtain ⟨root, hroot, h₅⟩ := bind_eq_ok.1 h₄
  obtain ⟨buf', hbuf', h⟩ := bind_eq_ok.1 h₅
  exact ⟨d₂, p₀, p, length, d₃, buf, root, buf', rfl, hplace, hpatch, hbuf, hroot, hbuf', h⟩

end Reuse

/-- An item that a plan places in advance is the value of a field that keeps its offset. -/
theorem Plan.ofDraft_placed {d : Draft} {root : Nat} {p : Plan} (h : Plan.ofDraft d root = .ok p)
    {it : Item} (hit : it ∈ p.items) {o : Nat} (ho : it.offset = some o) :
    ∃ i j x f, it.part = .value i j ∧ d.dirs[i]? = some x ∧ x.fields[j]? = some f ∧
      f.keptOffset = some o := by
  rw [Plan.ofDraft_items h] at hit
  obtain ⟨⟨x, i⟩, hxi, hit⟩ := List.mem_flatMap.1 hit
  simp only [Plan.dirItems, List.mem_cons, List.mem_append, List.mem_map, List.mem_filter,
    Option.mem_toList, Option.map_eq_some_iff] at hit
  rcases hit with (rfl | ⟨⟨f, j⟩, ⟨hfj, -⟩, rfl⟩) | ⟨th, -, rfl⟩
  · simp at ho
  · exact ⟨i, j, x, f, rfl, List.mk_mem_zipIdx_iff_getElem?.1 hxi,
      List.mk_mem_zipIdx_iff_getElem?.1 hfj, ho⟩
  · simp at ho

/-- A field of a synthesized draft that keeps an offset is a field of the draft, of a tag that is
not structural: placeholders keep no offset. -/
theorem Draft.synthesize_kept {d d₂ : Draft} (h : d.synthesize = .ok d₂)
    (hd : ∀ x ∈ d.dirs, (x.fields.map (·.tag)).Nodup) {i : Nat} {x₂ : Directory}
    (hx₂ : d₂.dirs[i]? = some x₂) {f : Field} (hf : f ∈ x₂.fields) {o : Nat}
    (ho : f.keptOffset = some o) : ∃ x, d.dirs[i]? = some x ∧ f ∈ x.fields ∧ f.tag.isStructural = false := by
  rw [Draft.synthesize_eq_ok h hd, List.getElem?_map] at hx₂
  obtain ⟨x, hx, rfl⟩ := Option.map_eq_some_iff.1 hx₂
  rcases Directory.mem_sortFields_withPlaceholders.1 hf with hf | hf | hf
  · exact ⟨x, hx, hf.1, hf.2⟩
  · obtain ⟨c, -, -, t, -, rfl⟩ := Directory.mem_pointerFields.1 hf
    simp [Field.long, Field.raw] at ho
  · obtain ⟨th, -, rfl | rfl⟩ := Directory.mem_thumbnailFields.1 hf <;>
      simp [Field.long, Field.raw] at ho

namespace Reuse

section Placed

variable {pool : List Extent} {tail length : Nat} {d d₂ d₃ : Draft} {p₀ p : Plan}

/-- Every item of the placed plan emits at most its length. -/
theorem Layout.emits (hplan : d.plan = (d₂, .ok p₀))
    (hl : Layout pool tail length p₀ p (writtenIds p₀ d.keptOffsets))
    (hpatch : p.patch d₂ = (d₃, .ok ())) :
    ∀ (id : Nat) (it : Item), p.items[id]? = some it → Emits it.length (p.pieces it d₃) := by
  intro id it hit
  obtain ⟨it₀, off, hit₀, rfl⟩ := hl.source hit
  exact Plan.pieces_emits (Draft.plan_items hplan it₀ (List.mem_of_getElem? hit₀)).1
    (Plan.patch_resized hpatch).1

/-- Tables wait unplaced in a plan, so placement writes them. -/
theorem Layout.table_written (hplan : d.plan = (d₂, .ok p₀))
    (hl : Layout pool tail length p₀ p (writtenIds p₀ d.keptOffsets)) {id : Nat} {it : Item}
    (hit : p.items[id]? = some it) {k : Nat} (hpart : it.part = .table k) :
    id ∈ writtenIds p₀ d.keptOffsets := by
  obtain ⟨it₀, off, hit₀, rfl⟩ := hl.source hit
  obtain ⟨root, -, -, -, hof⟩ := Draft.plan_eq_ok hplan
  refine mem_writtenIds.2 ⟨it₀, hit₀, fun o ho => ?_⟩
  obtain ⟨i, j, -, -, hpart₀, -⟩ := Plan.ofDraft_placed hof (List.mem_of_getElem? hit₀) ho
  cases hpart₀.symm.trans hpart

/-- No two directories of a placed plan have their tables at one offset: both tables are written,
apart from each other, and neither is empty. -/
theorem Layout.dirOffset_inj (hplan : d.plan = (d₂, .ok p₀))
    (hl : Layout pool tail length p₀ p (writtenIds p₀ d.keptOffsets)) {i i' t : Nat}
    (ht : p.dirOffset i = .ok t) (ht' : p.dirOffset i' = .ok t) : i = i' := by
  refine Plan.dirOffset_inj_of_apart (d := d₂) (fun id it hit => ?_)
    (fun id id' it it' _ _ o o' hne hid hid' hpart hpart' hoff hoff' => ?_) ht ht'
  · obtain ⟨it₀, off, hit₀, rfl⟩ := hl.source hit
    exact (Draft.plan_items hplan it₀ (List.mem_of_getElem? hit₀)).1
  · exact hl.apart id (hl.table_written hplan hid hpart) id' (hl.table_written hplan hid' hpart')
      hne ⟨o, it.length⟩ ⟨o', it'.length⟩ (by simp [Plan.span?, hid, hoff])
      (by simp [Plan.span?, hid', hoff'])

/-- An item that placement does not write is the value of a field of the draft that keeps the
item's offset; the pointers leave the field, so the item emits its bytes. -/
theorem Layout.kept_value (hwf : d.Coherent) (hplan : d.plan = (d₂, .ok p₀))
    (hl : Layout pool tail length p₀ p (writtenIds p₀ d.keptOffsets)) (hp : p₀.Placed p)
    (hpatch : p.patch d₂ = (d₃, .ok ())) {id : Nat} {it : Item} (hit : p.items[id]? = some it)
    (hid : id ∉ writtenIds p₀ d.keptOffsets) :
    ∃ x ∈ d.dirs, ∃ f ∈ x.fields, ∃ off, f.keptOffset = some off ∧ it.offset = some off ∧
      p.pieces it d₃ = [.ok f.bytes.data.toList] := by
  have hit₀ : p₀.items[id]? = some it := hl.unchanged id hid ▸ hit
  obtain ⟨off, hoff⟩ : ∃ off, it.offset = some off := by
    cases ho : it.offset with
    | none => exact absurd (mem_writtenIds.2 ⟨it, hit₀, fun o h => by simp [ho] at h⟩) hid
    | some off => exact ⟨off, rfl⟩
  obtain ⟨root, -, -, hsyn, hof⟩ := Draft.plan_eq_ok hplan
  obtain ⟨i, j, x₂, f, hpart, hx₂, hf, hfk⟩ := Plan.ofDraft_placed hof (List.mem_of_getElem? hit₀) hoff
  obtain ⟨x, hx, hfx, hns⟩ := Draft.synthesize_kept hsyn hwf.distinctTags hx₂ (List.mem_of_getElem? hf) hfk
  -- pointers name structural fields only, so the field is left as it was
  obtain ⟨-, -, hpatched⟩ := Plan.patch_patched hwf hplan hp hpatch
  obtain ⟨x₃, hx₃, hP⟩ := hpatched i x₂ hx₂
  have hf₃ := hP.getElem?_of_plain hof hp hf hns
  refine ⟨x, List.mem_of_getElem? hx, f, hfx, off, hfk, hoff, ?_⟩
  simp [Plan.pieces, hpart, hx₃, hf₃]

end Placed

section Writing

variable {o : ByteOrder} {old : ByteArray} {d₀ d : Draft} {frozen : List Tag} {runs : List Extent}
  {B : ByteArray}

/-- Writing into the gaps of an analysed segment keeps the old bytes after the header that no run
meets: they lie in no gap and before the tail, so neither the canvas, nor the header, nor an item
written takes them. -/
theorem writeGaps_keeps (hanalyze : Gaps.analyze old o d₀ frozen = .ok (runs, d))
    (h : writeGaps o old runs d = .ok B) {q : Nat} {bs : List UInt8} (hq : Holds old q bs)
    (hheader : headerSize ≤ q) (hpos : 0 < bs.length)
    (hruns : ∀ r ∈ runs, Extent.Apart ⟨q, bs.length⟩ r) : Holds B q bs := by
  obtain ⟨d₂, p₀, p, length, d₃, buf, root, buf', hplan, hplace, hpatch, hcanvas, -, hwh,
    hwrite⟩ := writeGaps_eq_ok h
  obtain ⟨hold, hinside, hsep⟩ := Gaps.analyze_runs hanalyze
  obtain ⟨pool, tail, htrim, htail, hl⟩ := (place_spec hinside hsep hold (writtenIds_nodup p₀ _)
    (writtenIds_unplaced hplan)).1 p length hplace
  have hpool := (trimTail_runs htrim hinside hsep hold).1
  -- the bytes end before the tail, which trimming moves down only past runs
  have hstop : q + bs.length ≤ tail := trimTail_above (v := ⟨q, bs.length⟩) hpos htrim
    (fun e he => hruns e ((Extent.sortByOffset_perm runs).mem_iff.1 (List.mem_reverse.1 he)))
    hq.bound
  have hcanvas' := canvas_holds hcanvas hq (by omega) hruns
  apply Plan.writeItems_keeps (hl.emits hplan hpatch) hwrite
    ((writeHeader_eq_ok hwh).2.2 hcanvas' hheader)
  intro id hid r hr
  rcases (hl.span hid hr).1.inGap with ⟨g, hg, hw⟩ | hafter
  · exact Extent.Apart.of_within hw (hruns g (hpool g hg)).symm
  · exact Or.inr (by simp only [Extent.stop]; omega)

/-- Writing into the gaps of an analysed segment, whose fields keep only offsets of old values
lying apart from the runs, leaves an image of the placed plan, when 32-bit offsets reach the whole
output: the items placed in the gaps are written, and the values kept stay where they were, their
items as planned. -/
theorem writeGaps_image (hwf : d.Coherent) (hanalyze : Gaps.analyze old o d₀ frozen = .ok (runs, d))
    (hkept : d.KeptIn old)
    (hapart : ∀ x ∈ d.dirs, ∀ f ∈ x.fields, ∀ q, f.keptOffset = some q →
      ∀ r ∈ runs, Extent.Apart ⟨q, f.bytes.size⟩ r)
    (hbo : o = d.byteOrder) (h : writeGaps o old runs d = .ok B)
    (hsize : B.size ≤ Width.bits32.bound) :
    ∃ d₂ p₀ p d₃, d.plan = (d₂, .ok p₀) ∧ p₀.Placed p ∧ p.patch d₂ = (d₃, .ok ()) ∧
      p.Image d₃ B ∧ ∀ id, id ∉ writtenIds p₀ d.keptOffsets → p.items[id]? = p₀.items[id]? := by
  obtain ⟨d₂, p₀, p, length, d₃, buf, root, buf', hplan, hplace, hpatch, hcanvas, hroot, hwh,
    hwrite⟩ := writeGaps_eq_ok h
  obtain ⟨hold, hinside, hsep⟩ := Gaps.analyze_runs hanalyze
  obtain ⟨pool, tail, -, -, hl⟩ := (place_spec hinside hsep hold (writtenIds_nodup p₀ _)
    (writtenIds_unplaced hplan)).1 p length hplace
  have hp : p₀.Placed p := hl.placed_plan (place_frame hplace)
  have hemit := hl.emits hplan hpatch
  have hbuf : buf'.size = length := (size_writeHeader hwh).trans (canvas_spec.1 buf hcanvas)
  have hall := Plan.writeItems_holds hemit hwrite (writtenIds_nodup p₀ _) hl.apart
    fun id hid r hr => hbuf ▸ (hl.span hid hr).2
  have hwritten : p.Written d₃ B := by
    intro it hit
    obtain ⟨id, hid⟩ := List.mem_iff_getElem?.1 hit
    by_cases hmem : id ∈ writtenIds p₀ d.keptOffsets
    · obtain ⟨it', off, bs, hit', hoff, hbs, hholds⟩ := hall id hmem
      rw [hid, Option.some.injEq] at hit'
      subst hit'
      have hr : p.span? id = some ⟨off, it.length⟩ := by simp [Plan.span?, hid, hoff]
      exact ⟨off, bs, hoff, (hl.span hmem hr).1.header, hbs, hholds⟩
    · obtain ⟨x, hx, f, hf, off, hkoff, hoff, hpieces⟩ :=
        hl.kept_value hwf hplan hp hpatch hid hmem
      obtain ⟨hheader, hout, hholds⟩ := hkept x hx f hf off hkoff
      have hpos : 0 < f.bytes.data.toList.length := by
        simp only [Field.outOfLine, decide_eq_true_eq] at hout
        simp only [Array.length_toList]
        exact Nat.lt_trans (by decide) hout
      refine ⟨off, f.bytes.data.toList, hoff, hheader, by simp [hpieces, ofPieces], ?_⟩
      exact writeGaps_keeps hanalyze h hholds hheader hpos (hapart x hx f hf off hkoff)
  obtain ⟨-, hhead, -⟩ := writeHeader_eq_ok hwh
  have hheader_kept := Plan.writeItems_keeps hemit hwrite hhead fun id hid r hr => by
    rw [length_header]
    exact Or.inr (hl.span hid hr).1.header
  have hbo' : p.byteOrder = o := (Plan.plan_byteOrder hwf hplan hp).trans hbo.symm
  exact ⟨d₂, p₀, p, d₃, hplan, hp, hpatch, ⟨⟨root, hroot, by rw [hbo']; exact hheader_kept⟩,
    hwritten, fun i i' t => hl.dirOffset_inj hplan, hsize⟩, hl.unchanged⟩

end Writing

end Reuse

end TiffLayout
