import TiffLayout.Plan.Emit
import TiffLayout.Proofs.Except
/-! Writing the pointer fields of a draft. Each pointer puts the four bytes of its target's
offset into the field that it names; when the pointers name distinct fields of directories with
distinct tags, every named field ends up holding its own target's offset and every other field
is left as it was. -/
namespace TiffLayout

namespace Directory

/-- In fields with distinct tags, changing the first field with a tag changes the field with
that tag. -/
theorem updateField_go_eq {t : Tag} {g : Field → Field} :
    ∀ {fs : List Field}, (fs.map (·.tag)).Nodup →
      updateField.go t g fs = fs.map fun f => if f.tag = t then g f else f
  | [], _ => rfl
  | f :: fs, h => by
    rw [List.map_cons, List.nodup_cons] at h
    unfold updateField.go
    by_cases hf : f.tag = t
    · have hrest : (fs.map fun f => if f.tag = t then g f else f) = fs := by
        refine (List.map_congr_left fun f' hf' => ?_).trans (List.map_id fs)
        have hne : f'.tag ≠ t := fun e => h.1 (by rw [hf, ← e]; exact List.mem_map_of_mem hf')
        rw [if_neg hne]
        rfl
      simp [hf, hrest]
    · simp [hf, updateField_go_eq h.2]

theorem tags_updateField {x : Directory} {t : Tag} {g : Field → Field} (hg : ∀ f, (g f).tag = f.tag)
    (hx : (x.fields.map (·.tag)).Nodup) :
    (x.updateField t g).fields.map (·.tag) = x.fields.map (·.tag) := by
  simp only [updateField, updateField_go_eq hx, List.map_map]
  exact List.map_congr_left fun f _ => by by_cases hf : f.tag = t <;> simp [hf, hg]

end Directory

namespace Plan

/-- Directory `x'` is directory `i` of a draft, `x`, with the pointers `qs` written: a field
that a pointer of directory `i` names holds the four bytes of the offset of the pointer's
target, and every other field is as it was. -/
structure Patched (p : Plan) (qs : List Pointer) (i : Nat) (x x' : Directory) : Prop where
  kind : x'.kind = x.kind
  byteOrder : x'.byteOrder = x.byteOrder
  thumbnail : x'.thumbnail = x.thumbnail
  length : x'.fields.length = x.fields.length
  field : ∀ (j : Nat) (f f' : Field), x.fields[j]? = some f → x'.fields[j]? = some f' →
    (f' = f ∧ ∀ q ∈ qs, q.dir = i → q.tag ≠ f.tag) ∨
    ∃ q ∈ qs, q.dir = i ∧ q.tag = f.tag ∧ ∃ off, p.itemOffset q.target = .ok off ∧
      off < Width.bits32.bound ∧ f' = f.setBytes 1 ⟨(p.byteOrder.encode 4 off).toArray⟩

theorem Patched.refl (p : Plan) (i : Nat) (x : Directory) : Patched p [] i x x where
  kind := rfl
  byteOrder := rfl
  thumbnail := rfl
  length := rfl
  field j f f' hf hf' := by
    rw [hf, Option.some.injEq] at hf'
    exact .inl ⟨hf'.symm, by simp⟩

theorem offsetBytes_eq_ok {o : ByteOrder} {n : Nat} {bytes : List UInt8}
    (h : offsetBytes o n = .ok bytes) : n < Width.bits32.bound ∧ bytes = o.encode 4 n := by
  obtain ⟨w, hw, hb⟩ := bind_eq_ok.1 h
  obtain ⟨hn, rfl⟩ := Width.narrow_ok_iff.1 (checked_eq_ok.1 hw)
  exact ⟨hn, (Except.ok.inj hb).symm⟩

/-- Writing one pointer changes the field it names, in its directory alone. -/
theorem patched_one {p : Plan} {q : Pointer} {off : Nat} (hoff : p.itemOffset q.target = .ok off)
    (h32 : off < Width.bits32.bound) {i : Nat} {x : Directory} (hx : (x.fields.map (·.tag)).Nodup) :
    Patched p [q] i x (if i = q.dir then
      x.updateField q.tag (·.setBytes 1 ⟨(p.byteOrder.encode 4 off).toArray⟩) else x) := by
  by_cases hi : i = q.dir
  · rw [if_pos hi]
    refine ⟨rfl, rfl, rfl, ?_, fun j f f' hf hf' => ?_⟩
    · show (Directory.updateField.go _ _ x.fields).length = _
      rw [Directory.updateField_go_eq hx, List.length_map]
    · simp only [Directory.updateField, Directory.updateField_go_eq hx, List.getElem?_map, hf,
        Option.map_some, Option.some.injEq] at hf'
      by_cases ht : f.tag = q.tag
      · rw [if_pos ht] at hf'
        exact .inr ⟨q, List.mem_singleton_self q, hi.symm, ht.symm, off, hoff, h32, hf'.symm⟩
      · rw [if_neg ht] at hf'
        refine .inl ⟨hf'.symm, fun q' hq' _ e => ht ?_⟩
        rw [List.mem_singleton.1 hq'] at e
        exact e.symm
  · rw [if_neg hi]
    refine ⟨rfl, rfl, rfl, rfl, fun j f f' hf hf' => ?_⟩
    rw [hf, Option.some.injEq] at hf'
    refine .inl ⟨hf'.symm, fun q' hq' hdir => ?_⟩
    rw [List.mem_singleton.1 hq'] at hdir
    exact absurd hdir.symm hi

/-- A pointer, then pointers that name other fields: each field holds what the pointer naming it
wrote. -/
theorem Patched.cons {p : Plan} {q : Pointer} {qs : List Pointer} {i : Nat} {x x₁ x' : Directory}
    (h₁ : Patched p [q] i x x₁) (h : Patched p qs i x₁ x')
    (hfresh : ∀ q' ∈ qs, q'.dir = q.dir → q'.tag ≠ q.tag) : Patched p (q :: qs) i x x' where
  kind := h.kind.trans h₁.kind
  byteOrder := h.byteOrder.trans h₁.byteOrder
  thumbnail := h.thumbnail.trans h₁.thumbnail
  length := h.length.trans h₁.length
  field j f f' hf hf' := by
    obtain ⟨f₁, hf₁⟩ : ∃ f₁, x₁.fields[j]? = some f₁ :=
      ⟨_, List.getElem?_eq_getElem (h₁.length ▸ (List.getElem?_eq_some_iff.1 hf).1)⟩
    rcases h₁.field j f f₁ hf hf₁ with ⟨rfl, hnone⟩ | ⟨q₀, hq₀, hdir, htag, off, hoff, h32, rfl⟩
    · -- the first pointer leaves the field, so the field is what the others make of it
      rcases h.field j f₁ f' hf₁ hf' with ⟨rfl, hnone'⟩ | ⟨q', hq', hdir', htag', rest⟩
      · refine .inl ⟨rfl, fun q' hq' hdir => ?_⟩
        rcases List.mem_cons.1 hq' with rfl | hq'
        · exact hnone q' List.mem_cons_self hdir
        · exact hnone' q' hq' hdir
      · exact .inr ⟨q', List.mem_cons_of_mem _ hq', hdir', htag', rest⟩
    · -- the first pointer writes the field, and no later pointer names it
      rw [List.mem_singleton] at hq₀
      subst hq₀
      rcases h.field j _ f' hf₁ hf' with ⟨rfl, -⟩ | ⟨q', hq', hdir', htag', -⟩
      · exact .inr ⟨q₀, List.mem_cons_self, hdir, htag, off, hoff, h32, rfl⟩
      · exact absurd (htag'.trans htag.symm) (hfresh q' hq' (hdir'.trans hdir.symm))

/-- Writing pointers that name distinct fields of directories with distinct tags: every named
field holds its target's offset and every other field is as it was. -/
theorem patchFrom_patched {p : Plan} : ∀ {qs : List Pointer} {d d' : Draft},
    p.patchFrom qs d = (d', .ok ()) → (qs.map fun q => (q.dir, q.tag)).Nodup →
    (∀ x ∈ d.dirs, (x.fields.map (·.tag)).Nodup) →
    d'.byteOrder = d.byteOrder ∧ d'.dirs.length = d.dirs.length ∧
      ∀ i x, d.dirs[i]? = some x → ∃ x', d'.dirs[i]? = some x' ∧ Patched p qs i x x'
  | [], d, d', h, _, _ => by
    simp only [patchFrom, Prod.mk.injEq] at h
    obtain ⟨rfl, -⟩ := h
    exact ⟨rfl, rfl, fun i x hx => ⟨x, hx, Patched.refl p i x⟩⟩
  | q :: qs, d, d', h, hkeys, htags => by
    rw [List.map_cons, List.nodup_cons] at hkeys
    unfold patchFrom at h
    split at h
    · simp at h
    rename_i bytes hbytes
    split at h
    · simp at h
    obtain ⟨off, hoff, hb⟩ := bind_eq_ok.1 hbytes
    obtain ⟨h32, rfl⟩ := offsetBytes_eq_ok hb
    have hdir₁ : ∀ i x, d.dirs[i]? = some x →
        (d.dirs.modify q.dir (·.updateField q.tag (·.setBytes 1 ⟨(p.byteOrder.encode 4 off).toArray⟩)))[i]? =
          some (if i = q.dir then
            x.updateField q.tag (·.setBytes 1 ⟨(p.byteOrder.encode 4 off).toArray⟩) else x) := by
      intro i x hx
      rw [List.getElem?_modify, hx]
      by_cases hi : q.dir = i
      · simp [hi]
      · simp [hi, Ne.symm hi]
    have htags₁ : ∀ x ∈ d.dirs.modify q.dir
        (·.updateField q.tag (·.setBytes 1 ⟨(p.byteOrder.encode 4 off).toArray⟩)),
        (x.fields.map (·.tag)).Nodup := by
      intro x₁ hx₁
      obtain ⟨i, hi⟩ := List.getElem?_of_mem hx₁
      have hlen : i < d.dirs.length := by
        have := (List.getElem?_eq_some_iff.1 hi).1
        rwa [List.length_modify] at this
      obtain ⟨x, hx⟩ : ∃ x, d.dirs[i]? = some x := ⟨_, List.getElem?_eq_getElem hlen⟩
      rw [hdir₁ i x hx, Option.some.injEq] at hi
      subst hi
      have hxt := htags x (List.mem_of_getElem? hx)
      split
      · rw [Directory.tags_updateField (g := (·.setBytes 1 ⟨(p.byteOrder.encode 4 off).toArray⟩))
          (fun f => rfl) hxt]
        exact hxt
      · exact hxt
    obtain ⟨hbo, hlen, hdirs⟩ := patchFrom_patched h hkeys.2 htags₁
    refine ⟨hbo, hlen.trans (List.length_modify ..), fun i x hx => ?_⟩
    obtain ⟨x', hx', hpatched⟩ := hdirs i _ (hdir₁ i x hx)
    refine ⟨x', hx', (patched_one hoff h32 (htags x (List.mem_of_getElem? hx))).cons hpatched ?_⟩
    intro q' hq' hdir htag
    exact hkeys.1 (List.mem_map.2 ⟨q', hq', by rw [hdir, htag]⟩)

end Plan

end TiffLayout
