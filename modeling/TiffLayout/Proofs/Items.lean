import TiffLayout.Plan.Build
import TiffLayout.Proofs.Occupied
import TiffLayout.Proofs.Synthesis
/-! The items of a plan. Every item has the length of what it serializes in the draft it was
planned from, and an item placed in advance is placed at an offset that a field of the draft kept
from an old segment. -/
namespace TiffLayout

/-- The item's length is that of what it serializes in the draft. -/
def Item.Sized (d : Draft) (it : Item) : Prop :=
  match it.part with
  | .table i => ∃ x, d.dirs[i]? = some x ∧ it.length = Ifd.tableLength x.fields.length
  | .value i j => ∃ x f, d.dirs[i]? = some x ∧ x.fields[j]? = some f ∧ f.outOfLine ∧
      it.length = f.bytes.size
  | .thumbnail i => ∃ x t, d.dirs[i]? = some x ∧ x.thumbnail = some t ∧ it.length = t.size

/-- The offsets that the fields of a directory keep. -/
def Directory.keptOffsets (x : Directory) : List Nat := x.fields.filterMap (·.keptOffset)

theorem Draft.mem_keptOffsets {d : Draft} {o : Nat} :
    o ∈ d.keptOffsets ↔ ∃ x ∈ d.dirs, o ∈ x.keptOffsets := by
  simp [Draft.keptOffsets, Directory.keptOffsets]

namespace Plan

theorem tableLength?_eq_ok {n length : Nat} (h : tableLength? n = .ok length) :
    length = Ifd.tableLength n := by
  obtain ⟨entries, he, h⟩ := bind_eq_ok.1 h
  obtain ⟨withCount, hc, h⟩ := bind_eq_ok.1 h
  obtain ⟨-, rfl⟩ := Width.mul_ok_iff.1 (checked_eq_ok.1 he)
  obtain ⟨-, rfl⟩ := Width.add_ok_iff.1 (checked_eq_ok.1 hc)
  obtain ⟨-, rfl⟩ := Width.add_ok_iff.1 (checked_eq_ok.1 h)
  simp only [Ifd.tableLength, entrySize]
  omega

/-- A value item stands for an out-of-line field, with its length and its kept offset. -/
theorem mem_valueItems {i : Nat} {fields : List Field} {values : List Item} {it : Item}
    (h : valueItems i fields = .ok values) (hit : it ∈ values) :
    ∃ f j, fields[j]? = some f ∧ f.outOfLine ∧ it = ⟨.value i j, f.bytes.size, f.keptOffset⟩ := by
  obtain ⟨⟨f, j⟩, hfj, hf⟩ := exists_of_mem_mapM h hit
  obtain ⟨hmem, hout⟩ := List.mem_filter.1 hfj
  obtain ⟨length, hlength, hf⟩ := bind_eq_ok.1 hf
  obtain ⟨-, rfl⟩ := Width.narrow_ok_iff.1 (checked_eq_ok.1 hlength)
  simp only [pure, Except.pure, Except.ok.injEq] at hf
  exact ⟨f, j, List.mk_mem_zipIdx_iff_getElem?.1 hmem, hout, hf.symm⟩

/-- A thumbnail brings one item and the pointer field that receives its offset. -/
theorem thumbnailItem_eq_ok {i id : Nat} {x : Directory} {items : List Item}
    {pointers : List Pointer} (h : thumbnailItem i x id = .ok (items, pointers)) :
    items = (x.thumbnail.map fun t => (⟨.thumbnail i, t.size, none⟩ : Item)).toList ∧
      pointers = (x.thumbnail.map fun _ => (⟨i, Tag.thumbnailOffset, id⟩ : Pointer)).toList := by
  unfold thumbnailItem at h
  split at h
  · rename_i t ht
    obtain ⟨l, hl, h⟩ := bind_eq_ok.1 h
    obtain ⟨-, rfl⟩ := Width.narrow_ok_iff.1 (checked_eq_ok.1 hl)
    simp only [pure, Except.pure, Except.ok.injEq, Prod.mk.injEq] at h
    simp [ht, h.1, h.2]
  · rename_i ht
    simp only [pure, Except.pure, Except.ok.injEq, Prod.mk.injEq] at h
    simp [ht, h.1, h.2]

/-- The items that one directory adds: its table, its out-of-line values and its thumbnail. -/
theorem gather_items {d : Draft} {g g' : Gather} {x : Directory} {i : Nat}
    (h : gather d g x i = .ok g') :
    ∃ length values, tableLength? x.fields.length = .ok length ∧
      valueItems i x.fields = .ok values ∧
      g'.items = g.items ++ [⟨.table i, length, none⟩] ++ values ++
        (x.thumbnail.map fun t => (⟨.thumbnail i, t.size, none⟩ : Item)).toList := by
  obtain ⟨n, hn, h⟩ := bind_eq_ok.1 h
  obtain ⟨-, rfl⟩ := Width.narrow_ok_iff.1 (checked_eq_ok.1 hn)
  obtain ⟨length, hlength, h⟩ := bind_eq_ok.1 h
  obtain ⟨values, hvalues, h⟩ := bind_eq_ok.1 h
  refine ⟨length, values, hlength, hvalues, ?_⟩
  obtain ⟨⟨thumb, thumbPointer⟩, hthumb, h⟩ := bind_eq_ok.1 h
  obtain ⟨⟨dirPointer, chain⟩, -, h⟩ := bind_eq_ok.1 h
  simp only [pure, Except.pure, Except.ok.injEq] at h
  subst h
  rw [(thumbnailItem_eq_ok hthumb).1]

/-- Every item that a directory of the draft adds is sized, and kept at an offset of the draft
if placed. -/
theorem gather_sized {d : Draft} {g g' : Gather} {x : Directory} {i : Nat}
    (h : gather d g x i = .ok g') (hx : d.dirs[i]? = some x)
    (hg : ∀ it ∈ g.items, it.Sized d ∧ ∀ o, it.offset = some o → o ∈ d.keptOffsets) :
    ∀ it ∈ g'.items, it.Sized d ∧ ∀ o, it.offset = some o → o ∈ d.keptOffsets := by
  obtain ⟨length, values, hlength, hvalues, hitems⟩ := gather_items h
  rw [hitems]
  intro it hit
  simp only [List.append_assoc, List.mem_append, List.mem_singleton, Option.mem_toList,
    Option.map_eq_some_iff] at hit
  rcases hit with hit | rfl | hit | ⟨t, ht, rfl⟩
  · exact hg it hit
  · exact ⟨⟨x, hx, tableLength?_eq_ok hlength⟩, by simp⟩
  · obtain ⟨f, j, hf, hout, rfl⟩ := mem_valueItems hvalues hit
    refine ⟨⟨x, f, hx, hf, hout, rfl⟩, fun o ho => ?_⟩
    refine Draft.mem_keptOffsets.2 ⟨x, List.mem_of_getElem? hx, ?_⟩
    simp only [Directory.keptOffsets, List.mem_filterMap]
    exact ⟨f, List.mem_of_getElem? hf, ho⟩
  · exact ⟨⟨x, t, hx, ht, rfl⟩, by simp⟩

/-- Every item of a planned draft is sized, and kept at an offset of the draft if placed. -/
theorem ofDraft_sized {d : Draft} {root : Nat} {p : Plan} (h : ofDraft d root = .ok p) :
    ∀ it ∈ p.items, it.Sized d ∧ ∀ o, it.offset = some o → o ∈ d.keptOffsets := by
  obtain ⟨g, hg, h⟩ := bind_eq_ok.1 h
  simp only [pure, Except.pure, Except.ok.injEq] at h
  subst h
  have := (foldlM_induction (f := fun g (xi : Directory × Nat) => gather d g xi.1 xi.2)
    (fun g l => (∀ it ∈ g.items, it.Sized d ∧ ∀ o, it.offset = some o → o ∈ d.keptOffsets) ∧
      ∀ xi ∈ l, xi ∈ d.dirs.zipIdx) (fun _ => True)
    (fun g xi l ⟨hg, hl⟩ =>
      ⟨fun g' hg' => ⟨gather_sized hg'
          (List.mk_mem_zipIdx_iff_getElem?.1 (hl xi List.mem_cons_self)) hg,
        fun a ha => hl a (List.mem_cons_of_mem xi ha)⟩,
       fun _ _ => trivial⟩)
    (l := d.dirs.zipIdx) (b := {}) ⟨by simp, fun _ h => h⟩).1 g hg
  exact this.1

end Plan

namespace Directory

theorem keptOffsets_removeField {x : Directory} {t : Tag} :
    ∀ o ∈ (x.removeField t).1.keptOffsets, o ∈ x.keptOffsets := by
  intro o ho
  simp only [removeField, keptOffsets, takeField_fst, List.mem_filterMap] at ho ⊢
  obtain ⟨f, hf, ho⟩ := ho
  exact ⟨f, (List.eraseP_subset) hf, ho⟩

theorem keptOffsets_addField {x x' : Directory} {f : Field} (h : x.addField f = .ok x')
    (hf : f.keptOffset = none) : ∀ o ∈ x'.keptOffsets, o ∈ x.keptOffsets := by
  obtain ⟨-, rfl⟩ := addField_ok_iff.1 h
  intro o ho
  simp only [keptOffsets, List.filterMap_append, List.mem_append, List.filterMap_cons, hf,
    List.filterMap_nil] at ho ⊢
  simpa using ho

theorem keptOffsets_sortFields {x : Directory} : ∀ n ∈ x.sortFields.keptOffsets, n ∈ x.keptOffsets := by
  intro n hn
  simp only [sortFields, keptOffsets, List.mem_filterMap, List.mem_mergeSort] at hn ⊢
  exact hn

/-- Synthesizing structural fields keeps no offset that the directory did not keep: fields are
only removed, or added as placeholders that keep none. -/
theorem keptOffsets_synthesize {x x' : Directory} {present : List DirectoryKind} {o : ByteOrder}
    (h : x.synthesize present o = .ok x') : ∀ n ∈ x'.keptOffsets, n ∈ x.keptOffsets := by
  obtain ⟨x₂, hx₂, h⟩ := bind_eq_ok.1 h
  have hremoved : ∀ n ∈ (structuralTags.foldl (fun x t => (x.removeField t).1) x).keptOffsets,
      n ∈ x.keptOffsets := by
    apply List.foldlRecOn (motive := fun y : Directory => ∀ n ∈ y.keptOffsets, n ∈ x.keptOffsets)
    · exact fun n hn => hn
    · intro y hy t _ n hn
      exact hy n (keptOffsets_removeField n hn)
  have hadded : ∀ n ∈ x₂.keptOffsets, n ∈ x.keptOffsets :=
    ((foldlM_induction (fun y _ => ∀ n ∈ y.keptOffsets, n ∈ x.keptOffsets) (fun _ => True)
      (fun y child _ hy => ⟨fun y' hy' => by
        unfold addPointerField at hy'
        split at hy'
        · split at hy'
          · exact fun n hn => hy n (keptOffsets_addField hy' rfl n hn)
          · simp only [pure, Except.pure, Except.ok.injEq] at hy'
            exact hy' ▸ hy
        · simp only [pure, Except.pure, Except.ok.injEq] at hy'
          exact hy' ▸ hy, fun _ _ => trivial⟩) hremoved).1 x₂ hx₂)
  split at h
  · obtain ⟨length, -, h⟩ := bind_eq_ok.1 h
    obtain ⟨x₃, hx₃, h⟩ := bind_eq_ok.1 h
    intro n hn
    exact hadded n (keptOffsets_addField hx₃ rfl n (keptOffsets_addField h rfl n hn))
  · simp only [pure, Except.pure, Except.ok.injEq] at h
    exact h ▸ hadded

end Directory

namespace Draft

/-- Synthesizing structural fields keeps no offset that the draft did not keep. -/
theorem keptOffsets_synthesize {d d' : Draft} (h : d.synthesize = .ok d') :
    ∀ n ∈ d'.keptOffsets, n ∈ d.keptOffsets := by
  obtain ⟨dirs, hdirs, h⟩ := bind_eq_ok.1 h
  simp only [pure, Except.pure, Except.ok.injEq] at h
  subst h
  intro n hn
  obtain ⟨x', hx', hn⟩ := mem_keptOffsets.1 hn
  obtain ⟨x, hx, hsyn⟩ := exists_of_mem_mapM hdirs hx'
  obtain ⟨x₁, hx₁, hsort⟩ := bind_eq_ok.1 hsyn
  simp only [pure, Except.pure, Except.ok.injEq] at hsort
  subst hsort
  exact mem_keptOffsets.2 ⟨x, hx, Directory.keptOffsets_synthesize hx₁ n
    (Directory.keptOffsets_sortFields n hn)⟩

/-- A successful plan is made of the synthesized draft, from its root directory. -/
theorem plan_eq_ok {d d' : Draft} {p : Plan} (h : d.plan = (d', .ok p)) :
    ∃ root, d.indexOf? .root = some root ∧ d.orphan? = none ∧ d.synthesize = .ok d' ∧
      Plan.ofDraft d' root = .ok p := by
  cases hroot : d.indexOf? .root with
  | none => simp [plan, hroot] at h
  | some root =>
    cases horphan : d.orphan? with
    | some x => simp [plan, hroot, horphan] at h
    | none =>
      rw [plan_eq_of_closed hroot horphan, Prod.mk.injEq] at h
      obtain ⟨hd', hp⟩ := h
      obtain ⟨d₁, hsyn, hp⟩ := bind_eq_ok.1 hp
      rw [synthesizeIn_of_ok hsyn] at hd'
      subst hd'
      exact ⟨root, rfl, rfl, hsyn, hp⟩

/-- Every item of a plan is sized in the synthesized draft, and an item placed in advance is
placed at an offset that the draft keeps. -/
theorem plan_items {d d' : Draft} {p : Plan} (h : d.plan = (d', .ok p)) :
    ∀ it ∈ p.items, it.Sized d' ∧ ∀ o, it.offset = some o → o ∈ d.keptOffsets := by
  obtain ⟨root, -, -, hsyn, hp⟩ := plan_eq_ok h
  intro it hit
  obtain ⟨hsized, hkept⟩ := Plan.ofDraft_sized hp it hit
  exact ⟨hsized, fun o ho => keptOffsets_synthesize hsyn o (hkept o ho)⟩

end Draft

end TiffLayout
