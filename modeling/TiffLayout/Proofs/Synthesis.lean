import TiffLayout.Plan.Build
import TiffLayout.Draft.Normal
import TiffLayout.Proofs.Except
import Mathlib.Data.List.Nodup
/-! What synthesis makes of a directory whose tags are distinct: its structural fields go, a
placeholder comes for each present child that has a pointer tag and for the offset and length
of a thumbnail, and the fields are sorted by tag. Synthesis in place, which planning runs, fails
as it does and otherwise gives the same draft. -/
namespace TiffLayout

theorem Tag.isStructural_iff_mem {t : Tag} : t.isStructural = true ↔ t ∈ structuralTags := by
  unfold isStructural linkedKind? structuralTags
  by_cases h₁ : t = exifPointer
  · subst h₁; decide
  by_cases h₂ : t = gpsPointer
  · subst h₂; decide
  by_cases h₃ : t = interopPointer
  · subst h₃; decide
  simp [h₁, h₂, h₃]

namespace Directory

/-- The pointer placeholders that synthesis adds to a directory of kind `k`, one for each present
child with a pointer tag, in the order of `present`. -/
def pointerFields (k : DirectoryKind) (present : List DirectoryKind) (o : ByteOrder) : List Field :=
  (present.filter (·.parent? = some k)).filterMap fun c => c.pointerTag?.map fun t => Field.long t 0 o

/-- The placeholders of a thumbnail: its offset and its length. -/
def thumbnailFields (thumbnail : Option ByteArray) (o : ByteOrder) : List Field :=
  match thumbnail with
  | some th => [Field.long Tag.thumbnailOffset 0 o, Field.long Tag.thumbnailLength th.size o]
  | none => []

/-- The directory with its structural fields replaced by placeholders, before sorting. -/
def withPlaceholders (x : Directory) (present : List DirectoryKind) (o : ByteOrder) : Directory :=
  { x with fields := x.fields.filter (fun f => !f.tag.isStructural) ++
      pointerFields x.kind present o ++ thumbnailFields x.thumbnail o }

theorem eraseP_tag_eq_filter {t : Tag} :
    ∀ {fs : List Field}, (fs.map (·.tag)).Nodup → fs.eraseP (·.tag = t) = fs.filter (·.tag ≠ t)
  | [], _ => rfl
  | f :: fs, h => by
    rw [List.map_cons, List.nodup_cons] at h
    by_cases hf : f.tag = t
    · have hrest : fs.filter (·.tag ≠ t) = fs := List.filter_eq_self.2 fun g hg => by
        have : g.tag ≠ f.tag := fun e => h.1 (e ▸ List.mem_map_of_mem hg)
        simpa [← hf] using this
      simpa [hf] using hrest.symm
    · simp [hf, eraseP_tag_eq_filter h.2]

/-- Removing each tag of a list from a directory with distinct tags keeps the fields whose tag
is not in the list. -/
theorem foldl_removeField {ts : List Tag} :
    ∀ {x : Directory}, (x.fields.map (·.tag)).Nodup →
      ts.foldl (fun x t => (x.removeField t).1) x = { x with fields := x.fields.filter (·.tag ∉ ts) } := by
  induction ts with
  | nil => intro x _; simp
  | cons t ts ih =>
    intro x hx
    have hremove : (x.removeField t).1 = { x with fields := x.fields.filter (·.tag ≠ t) } := by
      simp [removeField, takeField_fst, eraseP_tag_eq_filter hx]
    have hnodup : ((x.fields.filter (·.tag ≠ t)).map (·.tag)).Nodup :=
      hx.sublist (List.Sublist.map _ List.filter_sublist)
    rw [List.foldl_cons, hremove, ih hnodup, List.filter_filter]
    congr 2
    funext f
    simp [Bool.and_comm]

theorem pointerFields_cons (k c : DirectoryKind) (present : List DirectoryKind) (o : ByteOrder) :
    pointerFields k (c :: present) o =
      (if c.parent? = some k then (c.pointerTag?.map fun t => Field.long t 0 o).toList else []) ++
        pointerFields k present o := by
  unfold pointerFields
  by_cases hc : c.parent? = some k
  · cases ht : c.pointerTag? <;> simp [hc, ht]
  · simp [hc]

/-- The pointer placeholders go after the fields, one for each present child. -/
theorem foldlM_addPointer {k : DirectoryKind} {o : ByteOrder} :
    ∀ {present : List DirectoryKind} {y y' : Directory}, y.kind = k →
      present.foldlM (addPointerField o) y = .ok y' →
      y' = { y with fields := y.fields ++ pointerFields k present o }
  | [], y, y', _, h => by
    simp only [List.foldlM_nil, pure, Except.pure, Except.ok.injEq] at h
    simp [← h, pointerFields]
  | c :: present, y, y', hk, h => by
    rw [List.foldlM_cons] at h
    obtain ⟨y₁, hy₁, h⟩ := bind_eq_ok.1 h
    have hstep : y₁ = { y with fields := y.fields ++
        (if c.parent? = some k then (c.pointerTag?.map fun t => Field.long t 0 o).toList else []) } := by
      rw [← hk]
      unfold addPointerField at hy₁
      split at hy₁
      · rename_i hc
        split at hy₁
        · rename_i t ht
          rw [(addField_ok_iff.1 hy₁).2]
          simp [hc, ht]
        · rename_i ht
          simp only [pure, Except.pure, Except.ok.injEq] at hy₁
          simp [← hy₁, hc, ht]
      · rename_i hc
        simp only [pure, Except.pure, Except.ok.injEq] at hy₁
        simp [← hy₁, hc]
    have hk₁ : y₁.kind = k := by rw [hstep]; exact hk
    rw [foldlM_addPointer hk₁ h, hstep, pointerFields_cons]
    simp

/-- Synthesis of a directory with distinct tags: the fields without structural tags, then the
pointer placeholders, then the thumbnail's. -/
theorem synthesize_eq_ok {x x' : Directory} {present : List DirectoryKind} {o : ByteOrder}
    (h : x.synthesize present o = .ok x') (hx : (x.fields.map (·.tag)).Nodup) :
    x' = x.withPlaceholders present o := by
  have hstrip : (x.fields.filter (·.tag ∉ structuralTags)) =
      x.fields.filter (fun f => !f.tag.isStructural) := by
    congr 1
    funext f
    by_cases hs : f.tag.isStructural = true
    · simp [hs, Tag.isStructural_iff_mem.1 hs]
    · have hm : f.tag ∉ structuralTags := fun hm => hs (Tag.isStructural_iff_mem.2 hm)
      simp [hs, hm]
  obtain ⟨x₂, hx₂, h⟩ := bind_eq_ok.1 h
  rw [foldl_removeField hx, hstrip] at hx₂
  have hx₂' := foldlM_addPointer rfl hx₂
  subst hx₂'
  split at h
  · rename_i th hth
    obtain ⟨length, hlength, h⟩ := bind_eq_ok.1 h
    obtain ⟨-, rfl⟩ := Width.narrow_ok_iff.1 (checked_eq_ok.1 hlength)
    obtain ⟨x₃, hx₃, h⟩ := bind_eq_ok.1 h
    rw [(addField_ok_iff.1 h).2, (addField_ok_iff.1 hx₃).2]
    simp only at hth
    simp [withPlaceholders, thumbnailFields, hth]
  · rename_i hth
    simp only [pure, Except.pure, Except.ok.injEq] at h
    simp only at hth
    simp [← h, withPlaceholders, thumbnailFields, hth]

/-- Every placeholder has a structural tag. -/
theorem isStructural_of_mem_placeholders {k : DirectoryKind} {present : List DirectoryKind}
    {thumbnail : Option ByteArray} {o : ByteOrder} {f : Field}
    (h : f ∈ pointerFields k present o ++ thumbnailFields thumbnail o) : f.tag.isStructural := by
  rcases List.mem_append.1 h with h | h
  · obtain ⟨c, -, hc⟩ := List.mem_filterMap.1 h
    obtain ⟨t, ht, rfl⟩ := Option.map_eq_some_iff.1 hc
    simp [Field.long, Field.raw, Tag.isStructural, DirectoryKind.linkedKind?_pointerTag? ht]
  · unfold thumbnailFields at h
    split at h
    · rcases List.mem_pair.1 h with rfl | rfl
      · exact (by decide : Tag.thumbnailOffset.isStructural = true)
      · exact (by decide : Tag.thumbnailLength.isStructural = true)
    · cases h

/-- Reading keeps the fields without structural tags: of a directory with its placeholders,
those are the directory's own. -/
theorem filter_withPlaceholders (x : Directory) (present : List DirectoryKind) (o : ByteOrder) :
    (x.withPlaceholders present o).fields.filter (fun f => !f.tag.isStructural) =
      x.fields.filter (fun f => !f.tag.isStructural) := by
  have hplace : (pointerFields x.kind present o ++ thumbnailFields x.thumbnail o).filter
      (fun f => !f.tag.isStructural) = [] :=
    List.filter_eq_nil_iff.2 fun f hf => by simp [isStructural_of_mem_placeholders hf]
  rw [withPlaceholders, List.append_assoc, List.filter_append, hplace, List.append_nil,
    List.filter_filter]
  simp only [Bool.and_self]

/-- Ordering by tag, as `sortFields` orders. -/
theorem pairwise_mergeSort_tag (l : List Field) :
    (l.mergeSort fun a b => decide (a.tag.code.toNat ≤ b.tag.code.toNat)).Pairwise
      (fun a b => a.tag.code.toNat ≤ b.tag.code.toNat) := by
  have h : (l.mergeSort fun a b => decide (a.tag.code.toNat ≤ b.tag.code.toNat)).Pairwise
      (fun a b => decide (a.tag.code.toNat ≤ b.tag.code.toNat) = true) :=
    List.pairwise_mergeSort (fun a b c hab hbc => by simp only [decide_eq_true_eq] at *; omega)
      (fun a b => by simp only [Bool.or_eq_true, decide_eq_true_eq]; omega) l
  exact h.imp (fun hab => by simpa using hab)

/-- Fields with distinct tags, sorted by tag, are fixed by which fields they are. -/
theorem eq_of_perm_of_sorted {l₁ l₂ : List Field} (hp : l₁.Perm l₂) (hd : (l₁.map (·.tag)).Nodup)
    (h₁ : l₁.Pairwise fun a b => a.tag.code.toNat ≤ b.tag.code.toNat)
    (h₂ : l₂.Pairwise fun a b => a.tag.code.toNat ≤ b.tag.code.toNat) : l₁ = l₂ := by
  refine List.Perm.eq_of_pairwise (fun a b ha hb hab hba => ?_) h₁ h₂ hp
  have htag : a.tag = b.tag := congrArg Tag.mk (UInt16.toNat_inj.1 (Nat.le_antisymm hab hba))
  exact List.inj_on_of_nodup_map hd ha (hp.symm.mem_iff.1 hb) htag

/-- Synthesis keeps the fields of a directory with plain tags, in another order. -/
theorem perm_filter_sortFields_withPlaceholders (x : Directory) (present : List DirectoryKind)
    (o : ByteOrder) : ((x.withPlaceholders present o).sortFields.fields.filter
      fun f => !f.tag.isStructural).Perm (x.fields.filter fun f => !f.tag.isStructural) := by
  rw [← filter_withPlaceholders x present o]
  exact (List.mergeSort_perm _ _).filter _

/-- The fields that a synthesized directory keeps through reading are its normal fields, once
kept offsets are forgotten. -/
theorem forget_filter_sortFields_withPlaceholders {x : Directory} (present : List DirectoryKind)
    (o : ByteOrder) (hd : (x.fields.map (·.tag)).Nodup) :
    ((x.withPlaceholders present o).sortFields.fields.filter (fun f => !f.tag.isStructural)).map
      Field.forget = normalFields x.fields := by
  have hperm := perm_filter_sortFields_withPlaceholders x present o
  have hnodup : ((x.fields.filter fun f => !f.tag.isStructural).map (·.tag)).Nodup :=
    hd.sublist (List.filter_sublist.map _)
  apply eq_of_perm_of_sorted
  · rw [normalFields]
    exact (hperm.map _).trans (List.mergeSort_perm _ _).symm
  · rw [List.map_map]
    exact (hperm.map _).nodup_iff.2 hnodup
  · exact List.pairwise_map.2 ((pairwise_mergeSort_tag _).filter _)
  · exact pairwise_mergeSort_tag _

/-- A directory whose fields keep no offset keeps its normal fields through synthesis and
reading. -/
theorem filter_sortFields_withPlaceholders {x : Directory} (present : List DirectoryKind)
    (o : ByteOrder) (hd : (x.fields.map (·.tag)).Nodup) (hk : ∀ f ∈ x.fields, f.keptOffset = none) :
    (x.withPlaceholders present o).sortFields.fields.filter (fun f => !f.tag.isStructural) =
      normalFields x.fields := by
  have hperm := perm_filter_sortFields_withPlaceholders x present o
  calc _ = ((x.withPlaceholders present o).sortFields.fields.filter
          (fun f => !f.tag.isStructural)).map Field.forget := by
        refine ((List.map_congr_left (g := id) fun f hf => ?_).trans (List.map_id _)).symm
        simp [Field.forget, ← hk f (List.mem_of_mem_filter (hperm.mem_iff.1 hf))]
    _ = normalFields x.fields := forget_filter_sortFields_withPlaceholders present o hd

theorem nodup_addField {x x' : Directory} {f : Field} (h : x.addField f = .ok x')
    (hx : (x.fields.map (·.tag)).Nodup) : (x'.fields.map (·.tag)).Nodup := by
  obtain ⟨hnew, rfl⟩ := addField_ok_iff.1 h
  rw [List.map_append, List.nodup_append]
  refine ⟨hx, List.nodup_singleton _, fun a ha b hb => ?_⟩
  obtain ⟨g, hg, rfl⟩ := List.mem_map.1 ha
  rw [List.map_singleton, List.mem_singleton] at hb
  exact hb ▸ hnew g hg

/-- A synthesized directory has distinct tags, as its directory had. -/
theorem nodup_synthesize {x x' : Directory} {present : List DirectoryKind} {o : ByteOrder}
    (h : x.synthesize present o = .ok x') (hx : (x.fields.map (·.tag)).Nodup) :
    (x'.fields.map (·.tag)).Nodup := by
  obtain ⟨x₂, hx₂, h⟩ := bind_eq_ok.1 h
  rw [foldl_removeField hx] at hx₂
  have hstripped : ((x.fields.filter (·.tag ∉ structuralTags)).map (·.tag)).Nodup :=
    hx.sublist (List.filter_sublist.map _)
  -- every placeholder is added by `addField`, which refuses a tag that is present
  have hx₂' : (x₂.fields.map (·.tag)).Nodup :=
    ((foldlM_induction (fun (y : Directory) _ => (y.fields.map (·.tag)).Nodup) (fun _ => True)
      (fun y child _ hy => ⟨fun y' hy' => by
        unfold addPointerField at hy'
        split at hy'
        · split at hy'
          · exact nodup_addField hy' hy
          · simp only [pure, Except.pure, Except.ok.injEq] at hy'
            exact hy' ▸ hy
        · simp only [pure, Except.pure, Except.ok.injEq] at hy'
          exact hy' ▸ hy, fun _ _ => trivial⟩) hstripped).1 x₂ hx₂)
  split at h
  · obtain ⟨length, -, h⟩ := bind_eq_ok.1 h
    obtain ⟨x₃, hx₃, h⟩ := bind_eq_ok.1 h
    exact nodup_addField h (nodup_addField hx₃ hx₂')
  · simp only [pure, Except.pure, Except.ok.injEq] at h
    exact h ▸ hx₂'

end Directory

theorem DirectoryKind.pointerTag?_inj {a b : DirectoryKind} {t : Tag} (ha : a.pointerTag? = some t)
    (hb : b.pointerTag? = some t) : a = b := by
  cases a <;> cases b <;> simp only [DirectoryKind.pointerTag?, reduceCtorEq, Option.some.injEq] at ha hb ⊢ <;>
    subst ha <;> revert hb <;> decide

namespace Directory

/-- With distinct present kinds, every pointer placeholder is new, so all of them are added. -/
theorem foldlM_addPointer_ok {k : DirectoryKind} {o : ByteOrder} :
    ∀ {present : List DirectoryKind} {y : Directory}, y.kind = k → present.Nodup →
      (∀ f ∈ y.fields, ∀ c ∈ present, c.pointerTag? ≠ some f.tag) →
      present.foldlM (addPointerField o) y = .ok { y with fields := y.fields ++ pointerFields k present o }
  | [], y, _, _, _ => by simp [pointerFields, pure, Except.pure]
  | c :: present, y, hk, hnodup, hfree => by
    subst hk
    rw [List.nodup_cons] at hnodup
    have hrest : ∀ f ∈ y.fields, ∀ c' ∈ present, c'.pointerTag? ≠ some f.tag :=
      fun f hf c' hc' => hfree f hf c' (List.mem_cons_of_mem c hc')
    rw [List.foldlM_cons, pointerFields_cons]
    by_cases hc : c.parent? = some y.kind
    · cases ht : c.pointerTag? with
      | none =>
        have hstep : addPointerField o y c = .ok y := by
          simp [addPointerField, hc, ht, pure, Except.pure]
        rw [hstep, ok_bind, foldlM_addPointer_ok rfl hnodup.2 hrest]
        simp
      | some t =>
        have hstep : addPointerField o y c = .ok { y with fields := y.fields ++ [Field.long t 0 o] } := by
          simp only [addPointerField, hc, ht, if_true]
          exact addField_ok_iff.2 ⟨fun g hg hgt => hfree g hg c List.mem_cons_self (hgt ▸ ht), rfl⟩
        -- the new placeholder's tag belongs to `c` alone, which does not come again
        have hfree' : ∀ f ∈ y.fields ++ [Field.long t 0 o], ∀ c' ∈ present,
            c'.pointerTag? ≠ some f.tag := by
          intro f hf c' hc' hc't
          rcases List.mem_append.1 hf with hf | hf
          · exact hfree f hf c' (List.mem_cons_of_mem c hc') hc't
          · rw [List.mem_singleton] at hf
            subst hf
            exact hnodup.1 (DirectoryKind.pointerTag?_inj hc't ht ▸ hc')
        rw [hstep, ok_bind, foldlM_addPointer_ok (y := { y with fields := y.fields ++ [Field.long t 0 o] })
          rfl hnodup.2 hfree']
        simp [hc]
    · have hstep : addPointerField o y c = .ok y := by
        simp [addPointerField, hc, pure, Except.pure]
      rw [hstep, ok_bind, foldlM_addPointer_ok rfl hnodup.2 hrest]
      simp [hc]

theorem pointerTag?_ne_thumbnail {c : DirectoryKind} {t : Tag} (h : c.pointerTag? = some t) :
    t ≠ Tag.thumbnailOffset ∧ t ≠ Tag.thumbnailLength := by
  cases c <;> simp only [DirectoryKind.pointerTag?, reduceCtorEq, Option.some.injEq] at h <;>
    subst h <;> decide

/-- The placeholders have distinct tags, none of which a field without structural tag has. -/
theorem nodup_withPlaceholders {x : Directory} {present : List DirectoryKind} {o : ByteOrder}
    (hx : (x.fields.map (·.tag)).Nodup) (hp : present.Nodup) :
    ((x.withPlaceholders present o).fields.map (·.tag)).Nodup := by
  have hpointers : ((pointerFields x.kind present o).map (·.tag)).Nodup := by
    rw [pointerFields, List.map_filterMap]
    refine (hp.filter _).filterMap fun a a' t ha ha' => ?_
    simp only [Option.map_map, Option.mem_def, Option.map_eq_some_iff, Function.comp,
      Field.long, Field.raw] at ha ha'
    obtain ⟨t₁, h₁, rfl⟩ := ha
    obtain ⟨t₂, h₂, rfl⟩ := ha'
    exact DirectoryKind.pointerTag?_inj h₁ h₂
  have hthumb : ∀ f ∈ pointerFields x.kind present o, ∀ g ∈ thumbnailFields x.thumbnail o,
      f.tag ≠ g.tag := by
    intro f hf g hg
    obtain ⟨c, -, hc⟩ := List.mem_filterMap.1 hf
    obtain ⟨t, ht, rfl⟩ := Option.map_eq_some_iff.1 hc
    unfold thumbnailFields at hg
    split at hg
    · rcases List.mem_pair.1 hg with rfl | rfl
      · exact (pointerTag?_ne_thumbnail ht).1
      · exact (pointerTag?_ne_thumbnail ht).2
    · cases hg
  have hthumbs : ((thumbnailFields x.thumbnail o).map (·.tag)).Nodup := by
    unfold thumbnailFields
    split
    · show [Tag.thumbnailOffset, Tag.thumbnailLength].Nodup
      decide
    · exact List.nodup_nil
  rw [withPlaceholders, List.append_assoc, List.map_append, List.nodup_append]
  refine ⟨hx.sublist (List.filter_sublist.map _), ?_, fun a ha b hb => ?_⟩
  · rw [List.map_append, List.nodup_append]
    refine ⟨hpointers, hthumbs, fun a ha b hb => ?_⟩
    obtain ⟨f, hf, rfl⟩ := List.mem_map.1 ha
    obtain ⟨g, hg, rfl⟩ := List.mem_map.1 hb
    exact hthumb f hf g hg
  · obtain ⟨f, hf, rfl⟩ := List.mem_map.1 ha
    obtain ⟨g, hg, rfl⟩ := List.mem_map.1 hb
    intro e
    have hkeep := (List.mem_filter.1 hf).2
    rw [e, isStructural_of_mem_placeholders hg] at hkeep
    cases hkeep

/-- Synthesis of a directory with distinct tags, among distinct present kinds: it fails only
when the thumbnail is too long for a 32-bit length. -/
theorem synthesize_eq {x : Directory} {present : List DirectoryKind} {o : ByteOrder}
    (hx : (x.fields.map (·.tag)).Nodup) (hp : present.Nodup) :
    x.synthesize present o = match x.thumbnail with
      | some th => (checked (Width.bits32.narrow th.size)).map fun _ => x.withPlaceholders present o
      | none => .ok (x.withPlaceholders present o) := by
  have hstrip : (x.fields.filter (·.tag ∉ structuralTags)) =
      x.fields.filter (fun f => !f.tag.isStructural) := by
    congr 1
    funext f
    by_cases hs : f.tag.isStructural = true
    · simp [hs, Tag.isStructural_iff_mem.1 hs]
    · have hm : f.tag ∉ structuralTags := fun hm => hs (Tag.isStructural_iff_mem.2 hm)
      simp [hs, hm]
  have hfree : ∀ f ∈ x.fields.filter (fun f => !f.tag.isStructural), ∀ c ∈ present,
      c.pointerTag? ≠ some f.tag := by
    intro f hf c _ hc
    have hkeep := (List.mem_filter.1 hf).2
    simp [Tag.isStructural, DirectoryKind.linkedKind?_pointerTag? hc] at hkeep
  unfold synthesize
  simp only
  rw [foldl_removeField hx, hstrip]
  rw [foldlM_addPointer_ok (y := { x with fields := x.fields.filter fun f => !f.tag.isStructural })
    rfl hp hfree, ok_bind]
  have hnot : ∀ g ∈ x.fields.filter (fun f => !f.tag.isStructural) ++ pointerFields x.kind present o,
      g.tag ≠ Tag.thumbnailOffset ∧ g.tag ≠ Tag.thumbnailLength := by
    intro g hg
    rcases List.mem_append.1 hg with hg | hg
    · have hkeep := (List.mem_filter.1 hg).2
      constructor <;> intro e <;> rw [e] at hkeep <;> cases hkeep
    · obtain ⟨c, -, hc⟩ := List.mem_filterMap.1 hg
      obtain ⟨t, ht, rfl⟩ := Option.map_eq_some_iff.1 hc
      exact pointerTag?_ne_thumbnail ht
  simp only [withPlaceholders, thumbnailFields]
  generalize x.fields.filter (fun f => !f.tag.isStructural) ++ pointerFields x.kind present o = F at hnot ⊢
  cases hth : x.thumbnail with
  | none => simp [pure, Except.pure]
  | some th =>
    simp only
    rcases hn : checked (Width.bits32.narrow th.size) with e | n
    · simp [Except.map]
    obtain ⟨-, rfl⟩ := Width.narrow_ok_iff.1 (checked_eq_ok.1 hn)
    have hoffset := (addField_ok_iff (d := ⟨x.kind, x.byteOrder, F, some th⟩)
      (f := Field.long Tag.thumbnailOffset 0 o)).2 ⟨fun g hg => (hnot g hg).1, rfl⟩
    have hlength := (addField_ok_iff
      (d := ⟨x.kind, x.byteOrder, F ++ [Field.long Tag.thumbnailOffset 0 o], some th⟩)
      (f := Field.long Tag.thumbnailLength th.size o)).2 ⟨fun g hg => by
        rcases List.mem_append.1 hg with hg | hg
        · exact (hnot g hg).2
        · rw [List.mem_singleton] at hg
          subst hg
          show Tag.thumbnailOffset ≠ Tag.thumbnailLength
          decide, rfl⟩
    rw [ok_bind, hoffset, ok_bind, hlength]
    simp [Except.map]

theorem nodup_normalFields {fields : List Field} (hd : (fields.map (·.tag)).Nodup) :
    ((normalFields fields).map (·.tag)).Nodup := by
  have hperm := ((List.mergeSort_perm ((fields.filter fun f => !f.tag.isStructural).map Field.forget)
    fun a b => decide (a.tag.code.toNat ≤ b.tag.code.toNat)).map (·.tag))
  rw [normalFields]
  refine hperm.nodup_iff.2 ?_
  rw [List.map_map]
  exact hd.sublist (List.filter_sublist.map _)

theorem filter_normalFields (fields : List Field) :
    (normalFields fields).filter (fun f => !f.tag.isStructural) = normalFields fields := by
  refine List.filter_eq_self.2 fun f hf => ?_
  obtain ⟨g, hg, rfl⟩ := List.mem_map.1 ((List.mergeSort_perm _ _).mem_iff.1 hf)
  exact (List.mem_filter.1 hg).2

/-- Normalizing first changes nothing that synthesis keeps. -/
theorem sortFields_withPlaceholders_normalize {x : Directory} (present : List DirectoryKind)
    (o : ByteOrder) (hd : (x.fields.map (·.tag)).Nodup) (hk : ∀ f ∈ x.fields, f.keptOffset = none)
    (hp : present.Nodup) :
    (x.normalize.withPlaceholders present o).sortFields = (x.withPlaceholders present o).sortFields := by
  have hnormal : (normalFields x.fields).Perm (x.fields.filter fun f => !f.tag.isStructural) := by
    rw [← filter_sortFields_withPlaceholders present o hd hk, ← filter_withPlaceholders x present o]
    exact (List.mergeSort_perm _ _).filter _
  have hperm : (x.normalize.withPlaceholders present o).fields.Perm
      (x.withPlaceholders present o).fields := by
    simp only [withPlaceholders, normalize, List.append_assoc, filter_normalFields]
    exact hnormal.append_right _
  simp only [sortFields]
  congr 1
  apply eq_of_perm_of_sorted
  · exact ((List.mergeSort_perm _ _).trans hperm).trans (List.mergeSort_perm _ _).symm
  · exact ((List.mergeSort_perm _ _).map _).nodup_iff.2
      ((hperm.map _).nodup_iff.2 (nodup_withPlaceholders hd hp))
  · exact pairwise_mergeSort_tag _
  · exact pairwise_mergeSort_tag _

theorem foldlM_addPointerField (o : ByteOrder) : ∀ (ks : List DirectoryKind) (x : Directory),
    ks.foldlM (addPointerField o) x =
      (addPointerFieldsIn o ks x).2.map fun _ => (addPointerFieldsIn o ks x).1
  | [], x => rfl
  | k :: ks, x => by
    rw [List.foldlM_cons, addPointerFieldsIn]
    cases addPointerField o x k with
    | error e => rfl
    | ok x' => exact foldlM_addPointerField o ks x'

theorem synthesize_eq_synthesizeIn (x : Directory) (present : List DirectoryKind) (o : ByteOrder) :
    x.synthesize present o = (x.synthesizeIn present o).2.map fun _ => (x.synthesizeIn present o).1 := by
  unfold synthesize synthesizeIn
  dsimp only
  generalize structuralTags.foldl (fun x t => (x.removeField t).1) x = x₀
  rw [foldlM_addPointerField]
  rcases addPointerFieldsIn o present x₀ with ⟨x₁, e | ⟨⟩⟩
  · rfl
  · simp only [Except.map, ok_bind]
    cases x₁.thumbnail with
    | none => rfl
    | some th =>
      simp only
      cases checked (Width.bits32.narrow th.size) with
      | error e => rfl
      | ok n =>
        simp only [ok_bind]
        cases x₁.addField (Field.long Tag.thumbnailOffset 0 o) with
        | error e => rfl
        | ok x₂ =>
          simp only [ok_bind]
          cases x₂.addField (Field.long Tag.thumbnailLength n o) <;> rfl

end Directory

namespace Draft

/-- The synthesized draft: every directory with its placeholders, sorted by tag. -/
theorem synthesize_eq_ok {d d' : Draft} (h : d.synthesize = .ok d')
    (hd : ∀ x ∈ d.dirs, (x.fields.map (·.tag)).Nodup) :
    d' = { d with dirs := d.dirs.map fun x =>
      (x.withPlaceholders (d.dirs.map (·.kind)) d.byteOrder).sortFields } := by
  obtain ⟨dirs, hdirs, h⟩ := bind_eq_ok.1 h
  simp only [pure, Except.pure, Except.ok.injEq] at h
  rw [← h, mapM_eq_ok_map (fun x hx y hy => ?_) hdirs]
  obtain ⟨x₁, hx₁, hy⟩ := bind_eq_ok.1 hy
  simp only [pure, Except.pure, Except.ok.injEq] at hy
  rw [← hy, Directory.synthesize_eq_ok hx₁ (hd x hx)]

/-- What laying out a draft and reading it back need of it: well formed, except that its fields
may keep old offsets. -/
structure Coherent (d : Draft) : Prop where
  sorted : (d.dirs.map (·.kind.rank)).Pairwise (· < ·)
  byteOrder : ∀ x ∈ d.dirs, x.byteOrder = d.byteOrder
  distinctTags : ∀ x ∈ d.dirs, (x.fields.map (·.tag)).Nodup
  thumbnails : ∀ x ∈ d.dirs, ∀ t, x.thumbnail = some t → 0 < t.size

theorem WellFormed.coherent {d : Draft} (hw : d.WellFormed) : d.Coherent :=
  ⟨hw.sorted, hw.byteOrder, hw.distinctTags, hw.thumbnails⟩

theorem Coherent.nodup_kinds {d : Draft} (hw : d.Coherent) : (d.dirs.map (·.kind)).Nodup := by
  have hranks : ((d.dirs.map (·.kind)).map DirectoryKind.rank).Nodup := by
    rw [List.map_map]
    exact hw.sorted.imp Nat.ne_of_lt
  exact hranks.of_map _

/-- A well-formed draft and its normal form synthesize alike. -/
theorem synthesize_normalize {d : Draft} (hw : d.WellFormed) : d.normalize.synthesize = d.synthesize := by
  have hkinds : d.normalize.dirs.map (·.kind) = d.dirs.map (·.kind) := by
    simp [normalize, Directory.normalize]
  unfold synthesize
  rw [hkinds]
  simp only [normalize, List.mapM_map]
  rw [mapM_congr fun x hx => ?_]
  simp only [Function.comp]
  have hd := hw.distinctTags x hx
  rw [Directory.synthesize_eq (Directory.nodup_normalFields hd) hw.coherent.nodup_kinds,
    Directory.synthesize_eq hd hw.coherent.nodup_kinds]
  have hsorted := Directory.sortFields_withPlaceholders_normalize (d.dirs.map (·.kind)) d.byteOrder hd
    (hw.noKeptOffsets x hx) hw.coherent.nodup_kinds
  have hthumb : x.normalize.thumbnail = x.thumbnail := rfl
  rw [hthumb]
  cases x.thumbnail with
  | none => simp only [ok_bind, hsorted]
  | some th =>
    simp only
    cases checked (Width.bits32.narrow th.size) with
    | error e => rfl
    | ok n => simp only [Except.map, ok_bind, hsorted]

theorem mapM_synthesize_eq (present : List DirectoryKind) (o : ByteOrder) : ∀ xs : List Directory,
    xs.mapM (fun x => do pure (← x.synthesize present o).sortFields) =
      (synthesizeDirsIn present o xs).2.map fun _ => (synthesizeDirsIn present o xs).1
  | [] => rfl
  | x :: xs => by
    rw [List.mapM_cons, Directory.synthesize_eq_synthesizeIn, synthesizeDirsIn,
      mapM_synthesize_eq present o xs]
    rcases x.synthesizeIn present o with ⟨x', e | ⟨⟩⟩
    · rfl
    · cases (synthesizeDirsIn present o xs).2 <;> rfl

theorem synthesize_eq_synthesizeIn (d : Draft) :
    d.synthesize = d.synthesizeIn.2.map fun _ => d.synthesizeIn.1 := by
  unfold synthesize synthesizeIn
  dsimp only
  rw [mapM_synthesize_eq]
  cases (synthesizeDirsIn (d.dirs.map (·.kind)) d.byteOrder d.dirs).2 <;> rfl

theorem synthesizeIn_of_ok {d d' : Draft} (h : d.synthesize = .ok d') :
    d.synthesizeIn = (d', .ok ()) := by
  rw [synthesize_eq_synthesizeIn] at h
  rcases hs : d.synthesizeIn with ⟨d₁, e | ⟨⟩⟩ <;> rw [hs] at h
  · cases h
  · cases h
    rfl

theorem synthesizeIn_of_error {d : Draft} {e : LayoutError} (h : d.synthesize = .error e) :
    d.synthesizeIn = (d.synthesizeIn.1, .error e) := by
  rw [synthesize_eq_synthesizeIn] at h
  rcases hs : d.synthesizeIn with ⟨d₁, e' | ⟨⟩⟩ <;> rw [hs] at h
  · cases h
    rfl
  · cases h

/-- Past the root and parent checks, planning leaves the draft as synthesis in place does and
plans the synthesized draft. -/
theorem plan_eq_of_closed {d : Draft} {root : Nat} (hroot : d.indexOf? .root = some root)
    (horphan : d.orphan? = none) :
    d.plan = (d.synthesizeIn.1, d.synthesize >>= fun d' => Plan.ofDraft d' root) := by
  unfold plan
  rw [hroot, horphan]
  dsimp only
  cases hs : d.synthesize with
  | error e => rw [synthesizeIn_of_error hs]; rfl
  | ok d' => rw [synthesizeIn_of_ok hs]; rfl

/-- Planning gives back the draft, or the draft as synthesis in place leaves it. -/
theorem plan_fst (d : Draft) : d.plan.1 = d ∨ d.plan.1 = d.synthesizeIn.1 := by
  cases hroot : d.indexOf? .root with
  | none => exact .inl (by simp [plan, hroot])
  | some root =>
    cases horphan : d.orphan? with
    | some x => exact .inl (by simp [plan, hroot, horphan])
    | none => exact .inr (by rw [plan_eq_of_closed hroot horphan])

/-- Drafts with the same root, the same first directory without its parent and the same
synthesis are planned alike. -/
theorem plan_congr {d₁ d₂ : Draft} (hroot : d₁.indexOf? .root = d₂.indexOf? .root)
    (horphan : d₁.orphan?.map (·.kind) = d₂.orphan?.map (·.kind))
    (hsyn : d₁.synthesize = d₂.synthesize) :
    d₁.plan.2 = d₂.plan.2 ∧ ∀ p, d₁.plan.2 = .ok p → d₁.plan.1 = d₂.plan.1 := by
  cases hr : d₂.indexOf? .root with
  | none => simp [plan, hroot, hr]
  | some root =>
    rcases ho₁ : d₁.orphan? with _ | x₁ <;> rcases ho₂ : d₂.orphan? with _ | x₂ <;>
      rw [ho₁, ho₂] at horphan <;>
      simp only [Option.map_none, Option.map_some, reduceCtorEq, Option.some.injEq] at horphan
    · rw [plan_eq_of_closed (hroot.trans hr) ho₁, plan_eq_of_closed hr ho₂, hsyn]
      refine ⟨rfl, fun p hp => ?_⟩
      obtain ⟨d', hs, -⟩ := bind_eq_ok.1 hp
      rw [synthesizeIn_of_ok hs, synthesizeIn_of_ok (hsyn ▸ hs)]
    · simp [plan, hroot, hr, ho₁, ho₂, horphan]

end Draft

end TiffLayout
