import TiffLayout.Proofs.ReadBack
import TiffLayout.Proofs.Writing
import TiffLayout.Write.Compact
/-! Compact output is an image of its plan. Compact writing lays the items of a plan back to back
after the header, so its output is an image of the placed plan, which reads back as the normal
form of the draft written. Planning sees only the normal form, so writing that form gives the same
bytes. -/
namespace TiffLayout

open Buffer Emission Segment

theorem Item.Sized.length_pos {d : Draft} {it : Item} (h : it.Sized d) {i : Nat}
    (hpart : it.part = .table i) : 0 < it.length := by
  unfold Item.Sized at h
  rw [hpart] at h
  obtain ⟨x, -, hlen⟩ := h
  rw [hlen]
  unfold Ifd.tableLength
  omega

/-- A plan whose tables have positive length and share no byte with each other names each offset
of a table once. -/
theorem Plan.dirOffset_inj_of_apart {p : Plan} {d : Draft}
    (hsized : ∀ (id : Nat) (it : Item), p.items[id]? = some it → it.Sized d)
    (hapart : ∀ (id id' : Nat) (it it' : Item) (i i' o o' : Nat), id ≠ id' → p.items[id]? = some it →
      p.items[id']? = some it' → it.part = .table i → it'.part = .table i' → it.offset = some o →
      it'.offset = some o' → Extent.Apart ⟨o, it.length⟩ ⟨o', it'.length⟩)
    {i i' t : Nat} (ht : p.dirOffset i = .ok t) (ht' : p.dirOffset i' = .ok t) : i = i' := by
  obtain ⟨id, it, hid, hpart, hoff⟩ := Plan.dirOffset_eq_ok ht
  obtain ⟨id', it', hid', hpart', hoff'⟩ := Plan.dirOffset_eq_ok ht'
  by_cases hsame : id = id'
  · subst hsame
    rw [hid, Option.some.injEq] at hid'
    subst hid'
    rw [hpart] at hpart'
    exact Part.table.inj hpart'
  · have happ := hapart id id' it it' i i' t t hsame hid hid' hpart hpart' hoff hoff'
    have hpos := (hsized id it hid).length_pos hpart
    have hpos' := (hsized id' it' hid').length_pos hpart'
    unfold Extent.Apart Extent.stop at happ
    dsimp only at happ
    omega

namespace Draft

theorem orphan?_normalize (d : Draft) : d.normalize.orphan? = d.orphan?.map Directory.normalize := by
  simp [orphan?, normalize, List.find?_map, Function.comp_def, Directory.normalize]
  rfl

/-- Planning the normal form of a well-formed draft succeeds or fails as planning the draft does,
with the same plan and the same synthesized draft. -/
theorem plan_normalize {d : Draft} (hwf : d.WellFormed) :
    d.normalize.plan.2 = d.plan.2 ∧ ∀ p, d.plan.2 = .ok p → d.normalize.plan.1 = d.plan.1 := by
  have horphan : d.normalize.orphan?.map (·.kind) = d.orphan?.map (·.kind) := by
    rw [orphan?_normalize, Option.map_map]
    rfl
  obtain ⟨hplan, hfst⟩ := plan_congr (indexOf?_eq_of_kinds (by simp [normalize, Directory.normalize]) _)
    horphan (synthesize_normalize hwf)
  exact ⟨hplan, fun p hp => hfst p (hplan ▸ hp)⟩

end Draft

namespace Compact

/-- Items laid back to back from `start` up to `stop`: each item of `its` placed as it is at an
offset inside the range, and each ending before the next begins. -/
structure Packed (start stop : Nat) (its items : List Item) : Prop where
  length : items.length = its.length
  placed : ∀ (j : Nat) (it : Item), its[j]? = some it → ∃ off, items[j]? = some { it with offset := some off } ∧
    start ≤ off ∧ off + it.length ≤ stop
  ordered : items.Pairwise fun a b => ∃ oa ob, a.offset = some oa ∧ b.offset = some ob ∧
    oa + a.length ≤ ob
  le : start ≤ stop

section Packed

variable {start stop : Nat} {its items : List Item}

/-- Every packed item is an item of the list packed, placed inside the range. -/
theorem Packed.source (h : Packed start stop its items) {j : Nat} {it : Item}
    (hj : items[j]? = some it) : ∃ it₀ off, its[j]? = some it₀ ∧ it = { it₀ with offset := some off } ∧
      start ≤ off ∧ off + it₀.length ≤ stop := by
  have hlt : j < its.length := h.length ▸ (List.getElem?_eq_some_iff.1 hj).1
  obtain ⟨off, hoff, hle, hstop⟩ := h.placed j its[j] (List.getElem?_eq_getElem hlt)
  rw [hj, Option.some.injEq] at hoff
  exact ⟨its[j], off, List.getElem?_eq_getElem hlt, hoff, hle, hstop⟩

theorem Packed.parts (h : Packed start stop its items) : items.map (·.part) = its.map (·.part) := by
  apply List.ext_getElem?
  intro j
  rw [List.getElem?_map, List.getElem?_map]
  cases hj : items[j]? with
  | none =>
    have hnone : its[j]? = none := by
      rw [List.getElem?_eq_none_iff] at hj ⊢
      rw [← h.length]
      exact hj
    rw [hnone]
  | some it =>
    obtain ⟨it₀, off, h₀, rfl, -⟩ := h.source hj
    rw [h₀]
    rfl

/-- Two different packed items share no byte. -/
theorem Packed.apart (h : Packed start stop its items) {a b : Nat} (hab : a ≠ b) {ia ib : Item}
    (ha : items[a]? = some ia) (hb : items[b]? = some ib) {oa ob : Nat} (hoa : ia.offset = some oa)
    (hob : ib.offset = some ob) : Extent.Apart ⟨oa, ia.length⟩ ⟨ob, ib.length⟩ := by
  have hord : ∀ {a b : Nat} {ia ib : Item} {oa ob : Nat}, a < b → items[a]? = some ia →
      items[b]? = some ib → ia.offset = some oa → ib.offset = some ob → oa + ia.length ≤ ob := by
    intro a b ia ib oa ob hlt ha hb hoa hob
    obtain ⟨hal, rfl⟩ := List.getElem?_eq_some_iff.1 ha
    obtain ⟨hbl, rfl⟩ := List.getElem?_eq_some_iff.1 hb
    obtain ⟨oa', ob', hoa', hob', hle⟩ := List.pairwise_iff_getElem.1 h.ordered a b hal hbl hlt
    rw [hoa, Option.some.injEq] at hoa'
    rw [hob, Option.some.injEq] at hob'
    rw [hoa', hob']
    exact hle
  unfold Extent.Apart Extent.stop
  rcases Nat.lt_or_gt_of_ne hab with hlt | hlt
  · exact Or.inl (hord hlt ha hb hoa hob)
  · exact Or.inr (hord hlt hb ha hob hoa)

end Packed

/-- One step of packing: the first item is placed at `start`, and the others are packed from the
end of its padding on. -/
theorem packFrom_cons_eq_ok {start : Nat} {it : Item} {its items : List Item} {stop : Nat}
    (h : packFrom start (it :: its) = .ok (items, stop)) :
    ∃ rest, packFrom (start + it.length + Width.paddingToEven it.length) its = .ok (rest, stop) ∧
      items = { it with offset := some start } :: rest := by
  unfold packFrom at h
  obtain ⟨placed, hplaced, h⟩ := bind_eq_ok.1 h
  obtain ⟨next₁, hnext₁, h⟩ := bind_eq_ok.1 h
  obtain ⟨next₂, hnext₂, h⟩ := bind_eq_ok.1 h
  obtain ⟨⟨rest, stop'⟩, hrest, h⟩ := bind_eq_ok.1 h
  simp only [pure, Except.pure, Except.ok.injEq, Prod.mk.injEq] at h
  obtain ⟨rfl, rfl⟩ := h
  obtain ⟨-, -, rfl⟩ := Item.place_ok_iff.1 hplaced
  obtain ⟨-, rfl⟩ := Width.add_ok_iff.1 (checked_eq_ok.1 hnext₁)
  obtain ⟨-, rfl⟩ := Width.add_ok_iff.1 (checked_eq_ok.1 hnext₂)
  exact ⟨rest, hrest, rfl⟩

theorem packFrom_packed : ∀ {start : Nat} {its items : List Item} {stop : Nat},
    packFrom start its = .ok (items, stop) → Packed start stop its items
  | start, [], items, stop, h => by
    simp only [packFrom, Except.ok.injEq, Prod.mk.injEq] at h
    obtain ⟨rfl, rfl⟩ := h
    exact ⟨rfl, by simp, List.Pairwise.nil, Nat.le_refl _⟩
  | start, it :: its, items, stop, h => by
    obtain ⟨rest, hrest, rfl⟩ := packFrom_cons_eq_ok h
    have ih := packFrom_packed hrest
    have hle := ih.le
    refine ⟨by rw [List.length_cons, List.length_cons, ih.length], fun j a ha => ?_, ?_, by omega⟩
    · cases j with
      | zero =>
        rw [List.getElem?_cons_zero, Option.some.injEq] at ha
        subst ha
        exact ⟨start, rfl, Nat.le_refl _, by omega⟩
      | succ j =>
        rw [List.getElem?_cons_succ] at ha
        obtain ⟨off, hoff, hstart, hstop⟩ := ih.placed j a ha
        exact ⟨off, by rw [List.getElem?_cons_succ]; exact hoff, by omega, hstop⟩
    · refine List.Pairwise.cons (fun b hb => ?_) ih.ordered
      obtain ⟨j, hj⟩ := List.mem_iff_getElem?.1 hb
      obtain ⟨b₀, off, -, rfl, hstart, -⟩ := ih.source hj
      exact ⟨start, off, rfl, rfl, by dsimp only; omega⟩

section Planned

variable {d d₂ d₃ : Draft} {p₀ : Plan} {items : List Item} {length : Nat}

/-- Every item of a packed plan is sized in the synthesized draft. -/
theorem packed_sized (hplan : d.plan = (d₂, .ok p₀))
    (hpack : packFrom headerSize p₀.items = .ok (items, length)) :
    ∀ (id : Nat) (it : Item), ({ p₀ with items } : Plan).items[id]? = some it → it.Sized d₂ := by
  intro id it hit
  obtain ⟨it₀, off, h₀, rfl, -⟩ := (packFrom_packed hpack).source hit
  exact (Draft.plan_items hplan it₀ (List.mem_of_getElem? h₀)).1

/-- Every item of a packed plan emits at most its length in the patched draft. -/
theorem packed_emits (hplan : d.plan = (d₂, .ok p₀))
    (hpack : packFrom headerSize p₀.items = .ok (items, length))
    (hpatch : ({ p₀ with items } : Plan).patch d₂ = (d₃, .ok ())) :
    ∀ (id : Nat) (it : Item), ({ p₀ with items } : Plan).items[id]? = some it →
      Emits it.length (({ p₀ with items } : Plan).pieces it d₃) :=
  fun id it hit => Plan.pieces_emits (packed_sized hplan hpack id it hit) (Plan.patch_resized hpatch).1

end Planned

variable {o : ByteOrder} {d : Draft} {B : ByteArray}

/-- The steps of a compact write that succeeds. -/
theorem write_eq_ok (h : write o d = .ok B) : o = d.byteOrder ∧
    ∃ d₂ p₀ items length d₃ root buf, d.plan = (d₂, .ok p₀) ∧
      packFrom headerSize p₀.items = .ok (items, length) ∧
      ({ p₀ with items } : Plan).patch d₂ = (d₃, .ok ()) ∧
      ({ p₀ with items } : Plan).rootOffset = .ok root ∧
      writeHeader (zeros length) o root = .ok buf ∧
      ({ p₀ with items } : Plan).writeItems d₃ (List.range items.length) buf = .ok B := by
  unfold write at h
  split at h
  rename_i d₂ planned hplan
  split at h
  · obtain ⟨_, hthrow, -⟩ := bind_eq_ok.1 h
    cases hthrow
  · rename_i hbo
    refine ⟨not_not.1 hbo, ?_⟩
    dsimp only at h
    obtain ⟨p₀, hp₀, h⟩ := bind_eq_ok.1 h
    rw [hp₀] at hplan
    obtain ⟨⟨items, length⟩, hpack, h⟩ := bind_eq_ok.1 h
    dsimp only at h
    rcases hpatch : ({ p₀ with items } : Plan).patch d₂ with ⟨d₃, patched⟩
    rw [hpatch] at h
    dsimp only at h
    obtain ⟨⟨⟩, hpatched, h⟩ := bind_eq_ok.1 h
    rw [hpatched] at hpatch
    obtain ⟨size, hsize, h⟩ := bind_eq_ok.1 h
    obtain ⟨-, hsize⟩ := Width.narrow_ok_iff.1 (checked_eq_ok.1 hsize)
    rw [hsize] at h
    obtain ⟨root, hroot, h⟩ := bind_eq_ok.1 h
    obtain ⟨buf, hbuf, h⟩ := bind_eq_ok.1 h
    exact ⟨d₂, p₀, items, length, d₃, root, buf, hplan, hpack, hpatch, hroot, hbuf, h⟩

/-- A compact write of a well-formed draft that succeeds leaves its placed plan in the output: the
header naming the root's table, the output of every item at its offset, and entry tables at
distinct offsets. The items are those of the plan packed after the header up to the end of the
output. -/
theorem write_written (hwf : d.Coherent) (h : write o d = .ok B) :
    ∃ d₂ p₀ p d₃, d.plan = (d₂, .ok p₀) ∧ p₀.Placed p ∧ p.patch d₂ = (d₃, .ok ()) ∧
      (∃ r, p.rootOffset = .ok r ∧
        Holds B 0 (p.byteOrder.marker ++ p.byteOrder.encode 2 magic ++ p.byteOrder.encode 4 r)) ∧
      p.Written d₃ B ∧ (∀ i i' t, p.dirOffset i = .ok t → p.dirOffset i' = .ok t → i = i') ∧
      packFrom headerSize p₀.items = .ok (p.items, B.size) := by
  obtain ⟨hbo, d₂, p₀, items, length, d₃, root, buf, hplan, hpack, hpatch, hroot, hheader,
    hwrite⟩ := write_eq_ok h
  set p : Plan := { p₀ with items }
  have hP := packFrom_packed hpack
  have hplaced : p₀.Placed p := ⟨rfl, rfl, rfl, rfl, hP.parts⟩
  have hsized := packed_sized hplan hpack
  have hemit := packed_emits hplan hpack hpatch
  have hspan : ∀ {id : Nat} {r : Extent}, p.span? id = some r → ∃ it off, p.items[id]? = some it ∧
      it.offset = some off ∧ headerSize ≤ off ∧ r = ⟨off, it.length⟩ ∧ off + it.length ≤ length := by
    intro id r hr
    simp only [Plan.span?, Option.bind_eq_some_iff, Option.map_eq_some_iff] at hr
    obtain ⟨it, hit, off, hoff, rfl⟩ := hr
    obtain ⟨it₀, off', -, rfl, hstart, hstop⟩ := hP.source hit
    simp only [Option.some.injEq] at hoff
    subst hoff
    exact ⟨_, off', hit, rfl, hstart, rfl, hstop⟩
  have hall := Plan.writeItems_holds hemit hwrite List.nodup_range
    (fun a _ b _ hab r q hr hq => by
      obtain ⟨ia, oa, ha, hoa, -, rfl, -⟩ := hspan hr
      obtain ⟨ib, ob, hb, hob, -, rfl, -⟩ := hspan hq
      exact hP.apart hab ha hb hoa hob)
    (fun id _ r hr => by
      obtain ⟨it, off, -, -, -, rfl, hstop⟩ := hspan hr
      rw [size_writeHeader hheader, size_zeros]
      exact hstop)
  obtain ⟨-, hhead, -⟩ := writeHeader_eq_ok hheader
  have hheader_kept := Plan.writeItems_keeps hemit hwrite hhead fun id _ r hr => by
    obtain ⟨it, off, -, -, hstart, rfl, -⟩ := hspan hr
    rw [length_header]
    exact Or.inr hstart
  have hwritten : p.Written d₃ B := by
    intro it hit
    obtain ⟨id, hid⟩ := List.mem_iff_getElem?.1 hit
    obtain ⟨it', off, bs, hit', hoff, hbs, hholds⟩ :=
      hall id (List.mem_range.2 (List.getElem?_eq_some_iff.1 hid).1)
    rw [hid, Option.some.injEq] at hit'
    subst hit'
    obtain ⟨it₀, off', -, rfl, hstart, -⟩ := hP.source hid
    simp only [Option.some.injEq] at hoff
    subst hoff
    exact ⟨off', bs, rfl, hstart, hbs, hholds⟩
  have htables : ∀ i i' t, p.dirOffset i = .ok t → p.dirOffset i' = .ok t → i = i' :=
    fun _ _ _ => Plan.dirOffset_inj_of_apart hsized
      fun _ _ _ _ _ _ _ _ hne ha hb _ _ hoa hob => hP.apart hne ha hb hoa hob
  have hbo' : p.byteOrder = o := (Plan.plan_byteOrder hwf hplan hplaced).trans hbo.symm
  have hsize : B.size = length := by
    rw [Plan.size_writeItems hwrite, size_writeHeader hheader, size_zeros]
  exact ⟨d₂, p₀, p, d₃, hplan, hplaced, hpatch, ⟨root, hroot, by rw [hbo']; exact hheader_kept⟩,
    hwritten, htables, hsize ▸ hpack⟩

/-- A compact write of a well-formed draft that succeeds leaves an image of its placed plan, when
32-bit offsets reach the whole output. -/
theorem write_image (hwf : d.Coherent) (h : write o d = .ok B)
    (hsize : B.size ≤ Width.bits32.bound) :
    ∃ d₂ p₀ p d₃, d.plan = (d₂, .ok p₀) ∧ p₀.Placed p ∧ p.patch d₂ = (d₃, .ok ()) ∧
      p.Image d₃ B := by
  obtain ⟨d₂, p₀, p, d₃, hplan, hplaced, hpatch, hheader, hwritten, htables, -⟩ := write_written hwf h
  exact ⟨d₂, p₀, p, d₃, hplan, hplaced, hpatch, ⟨hheader, hwritten, htables, hsize⟩⟩

/-- The normal form of a well-formed draft is written as the draft is. -/
theorem write_normalize (hwf : d.WellFormed) : write o d.normalize = write o d := by
  obtain ⟨hsame, hfst⟩ := Draft.plan_normalize hwf
  unfold write
  rcases hn : d.normalize.plan with ⟨dn, rn⟩
  rcases hd : d.plan with ⟨dd, rd⟩
  rw [hn, hd] at hsame
  rw [hd] at hfst
  dsimp only at hsame hfst
  subst hsame
  cases rn with
  | error e => rfl
  | ok p =>
    have hdn : dn = dd := by simpa [hn, hd] using hfst p rfl
    subst hdn
    rfl

end Compact

end TiffLayout
