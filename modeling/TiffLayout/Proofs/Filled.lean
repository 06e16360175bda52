import TiffLayout.Proofs.PlanParts
import TiffLayout.Proofs.Patch
import TiffLayout.Proofs.Synthesis
import TiffLayout.Proofs.Walk
/-! The draft as it is written: its own fields sorted by tag, and its structural fields single
LONGs holding the offsets of the child tables and of the thumbnail and its length. -/
namespace TiffLayout

/-- In a list whose images under `f` are distinct, an element is the first with its image. -/
theorem findIdx?_of_nodup_map {α β : Type} [DecidableEq β] {l : List α} {f : α → β}
    (hnd : (l.map f).Nodup) {i : Nat} {a : α} (ha : l[i]? = some a) :
    l.findIdx? (fun b => decide (f b = f a)) = some i := by
  obtain ⟨hi, rfl⟩ := List.getElem?_eq_some_iff.1 ha
  refine List.findIdx?_eq_some_iff_getElem.2 ⟨hi, by simp, fun j hj hfj => ?_⟩
  have hj' : j < (l.map f).length := by simp only [List.length_map]; omega
  have hi' : i < (l.map f).length := by simpa using hi
  have heq : (l.map f)[j] = (l.map f)[i] := by simpa using hfj
  exact absurd ((List.Nodup.getElem_inj_iff hnd).1 heq) (by omega)

namespace Draft

theorem indexOf?_of_getElem? {d : Draft} (hd : (d.dirs.map (·.kind)).Nodup) {i : Nat}
    {x : Directory} (hx : d.dirs[i]? = some x) : d.indexOf? x.kind = some i :=
  findIdx?_of_nodup_map hd hx

theorem indexOf?_eq_some {d : Draft} {k : DirectoryKind} {i : Nat} (h : d.indexOf? k = some i) :
    ∃ x, d.dirs[i]? = some x ∧ x.kind = k := by
  obtain ⟨hi, hk, -⟩ := List.findIdx?_eq_some_iff_getElem.1 h
  exact ⟨_, List.getElem?_eq_getElem hi, by simpa using hk⟩

end Draft

namespace Field

/-- A single LONG holding `v`: the form in which pointer and thumbnail fields are written. -/
structure IsWord (f : Field) (o : ByteOrder) (v : Nat) : Prop where
  type : f.type = .long
  count : f.count = 1
  bytes : f.bytes.data.toList = o.encode 4 v
  lt : v < Width.bits32.bound

theorem isWord_setBytes {f : Field} (ht : f.type = .long) (o : ByteOrder) {v : Nat}
    (hv : v < Width.bits32.bound) : (f.setBytes 1 ⟨(o.encode 4 v).toArray⟩).IsWord o v :=
  ⟨ht, rfl, by simp [setBytes], hv⟩

theorem isWord_long (t : Tag) (o : ByteOrder) {v : Nat} (hv : v < Width.bits32.bound) :
    (long t v o).IsWord o v :=
  ⟨rfl, rfl, by simp [long, raw], hv⟩

end Field

namespace Directory

theorem mem_pointerFields {k : DirectoryKind} {present : List DirectoryKind} {o : ByteOrder}
    {f : Field} : f ∈ pointerFields k present o ↔
      ∃ c ∈ present, c.parent? = some k ∧ ∃ t, c.pointerTag? = some t ∧ Field.long t 0 o = f := by
  simp [pointerFields, and_assoc]

theorem mem_thumbnailFields {thumbnail : Option ByteArray} {o : ByteOrder} {f : Field} :
    f ∈ thumbnailFields thumbnail o ↔ ∃ th, thumbnail = some th ∧
      (f = Field.long Tag.thumbnailOffset 0 o ∨ f = Field.long Tag.thumbnailLength th.size o) := by
  cases thumbnail <;> simp [thumbnailFields]

/-- The fields of a synthesized directory: its own without structural tags and the
placeholders. -/
theorem mem_sortFields_withPlaceholders {x : Directory} {present : List DirectoryKind}
    {o : ByteOrder} {f : Field} : f ∈ (x.withPlaceholders present o).sortFields.fields ↔
      (f ∈ x.fields ∧ f.tag.isStructural = false) ∨ f ∈ pointerFields x.kind present o ∨
        f ∈ thumbnailFields x.thumbnail o := by
  simp [sortFields, withPlaceholders, List.mem_mergeSort]

end Directory

theorem Directory.nodup_sortFields_withPlaceholders {x : Directory} {present : List DirectoryKind}
    {o : ByteOrder} (hx : (x.fields.map (·.tag)).Nodup) (hp : present.Nodup) :
    ((x.withPlaceholders present o).sortFields.fields.map (·.tag)).Nodup :=
  ((List.mergeSort_perm _ _).map _).nodup_iff.2 (Directory.nodup_withPlaceholders hx hp)

theorem Directory.kinds_sortFields_withPlaceholders (l : List Directory)
    (present : List DirectoryKind) (o : ByteOrder) :
    (l.map fun x => (x.withPlaceholders present o).sortFields).map (·.kind) = l.map (·.kind) := by
  rw [List.map_map]
  rfl

/-- A thumbnail of a draft that synthesizes has a 32-bit length. -/
theorem Draft.synthesize_thumbnail_lt {d d₂ : Draft} (h : d.synthesize = .ok d₂) (hwf : d.Coherent)
    {x : Directory} (hx : x ∈ d.dirs) {th : ByteArray} (hth : x.thumbnail = some th) :
    th.size < Width.bits32.bound := by
  obtain ⟨dirs, hdirs, -⟩ := bind_eq_ok.1 h
  obtain ⟨y, hy⟩ := ok_of_mem_mapM hdirs hx
  obtain ⟨x', hx', -⟩ := bind_eq_ok.1 hy
  rw [Directory.synthesize_eq (hwf.distinctTags x hx) hwf.nodup_kinds, hth] at hx'
  cases hn : checked (Width.bits32.narrow th.size) with
  | error e => simp [hn, Except.map] at hx'
  | ok w => exact (Width.narrow_ok_iff.1 (checked_eq_ok.1 hn)).1

theorem Tag.linkedKind?_thumbnailOffset : Tag.thumbnailOffset.linkedKind? = none := by decide

theorem Tag.linkedKind?_thumbnailLength : Tag.thumbnailLength.linkedKind? = none := by decide

theorem Tag.thumbnailOffset_ne_length : Tag.thumbnailOffset ≠ Tag.thumbnailLength := by decide

theorem Tag.isStructural_of_linkedKind? {t : Tag} {c : DirectoryKind} (h : t.linkedKind? = some c) :
    t.isStructural = true := by
  simp [Tag.isStructural, h]

/-- The directory that a part belongs to. -/
def Part.dir : Part → Nat
  | .table i => i
  | .value i _ => i
  | .thumbnail i => i

namespace Plan

theorem dir_of_mem_dirItems {i : Nat} {x : Directory} {it : Item} (h : it ∈ dirItems i x) :
    it.part.dir = i := by
  simp only [dirItems, List.cons_append, List.mem_cons, List.mem_append, List.mem_map,
    Option.mem_toList, Option.map_eq_some_iff] at h
  rcases h with rfl | ⟨a, -, rfl⟩ | ⟨t, -, rfl⟩ <;> rfl

theorem nodup_parts_dirItems (i : Nat) (x : Directory) : ((dirItems i x).map (·.part)).Nodup := by
  have hidx : ((x.fields.zipIdx.filter (·.1.outOfLine)).map (·.2)).Nodup := by
    have hsub := (List.filter_sublist (l := x.fields.zipIdx) (p := (·.1.outOfLine))).map Prod.snd
    rw [List.zipIdx_map_snd] at hsub
    exact (List.nodup_range' ..).sublist hsub
  have hvalues : (((x.fields.zipIdx.filter (·.1.outOfLine)).map fun a =>
      (⟨.value i a.2, a.1.bytes.size, a.1.keptOffset⟩ : Item)).map (·.part)).Nodup := by
    have h := List.Nodup.map (f := Part.value i) (fun a b h => (Part.value.inj h).2) hidx
    rw [List.map_map] at h
    rw [List.map_map]
    exact h
  cases hth : x.thumbnail with
  | none => simpa [dirItems, hth] using hvalues
  | some th =>
    simp only [dirItems, hth, List.map_cons, List.map_append, List.nodup_cons, List.nodup_append]
    simp_all
    rintro _ _ _ - - rfl
    exact Part.noConfusion

section OfDraft

variable {d : Draft} {root : Nat} {p : Plan}

/-- A plan has one item for each part of its draft. -/
theorem ofDraft_nodup_parts (h : ofDraft d root = .ok p) : (p.items.map (·.part)).Nodup := by
  rw [ofDraft_items h, List.map_flatMap]
  refine List.nodup_flatMap.2 ⟨fun xi _ => nodup_parts_dirItems xi.2 xi.1, ?_⟩
  have hidx : d.dirs.zipIdx.Pairwise (fun a b => a.2 ≠ b.2) := by
    apply List.pairwise_map.1
    rw [List.zipIdx_map_snd]
    exact List.nodup_range'
  refine hidx.imp fun {a b} hab P ha hb => ?_
  obtain ⟨it, hit, rfl⟩ := List.mem_map.1 ha
  obtain ⟨it', hit', heq⟩ := List.mem_map.1 hb
  exact hab ((dir_of_mem_dirItems hit).symm.trans (heq ▸ dir_of_mem_dirItems hit'))

theorem ofDraft_mem_table (h : ofDraft d root = .ok p) {i : Nat} {x : Directory}
    (hx : d.dirs[i]? = some x) : Part.table i ∈ p.items.map (·.part) := by
  rw [ofDraft_items h]
  refine List.mem_map.2 ⟨⟨.table i, Ifd.tableLength x.fields.length, none⟩,
    List.mem_flatMap.2 ⟨(x, i), List.mk_mem_zipIdx_iff_getElem?.2 hx, by simp [dirItems]⟩, rfl⟩

theorem pointerKey_eq_some {x : Directory} {k : Nat × Tag} (h : pointerKey d x = some k) :
    x.kind.pointerTag? = some k.2 := by
  simp only [pointerKey, Option.bind_eq_some_iff, Option.map_eq_some_iff] at h
  obtain ⟨-, -, -, -, t, ht, rfl⟩ := h
  exact ht

/-- No two pointers name the same field. -/
theorem ofDraft_keys_nodup (h : ofDraft d root = .ok p) (hd : (d.dirs.map (·.kind)).Nodup) :
    (p.pointers.map fun q => (q.dir, q.tag)).Nodup := by
  obtain ⟨-, hkeys, -⟩ := ofDraft_pointers h
  have hidx : ((d.dirs.zipIdx.filter (·.1.thumbnail.isSome)).map (·.2)).Nodup := by
    have hsub := (List.filter_sublist (l := d.dirs.zipIdx) (p := (·.1.thumbnail.isSome))).map Prod.snd
    rw [List.zipIdx_map_snd] at hsub
    exact (List.nodup_range' ..).sublist hsub
  rw [hkeys, List.nodup_append]
  refine ⟨?_, ?_, ?_⟩
  · have h := List.Nodup.map (f := (·, Tag.thumbnailOffset)) (fun a b h => (Prod.mk.inj h).1) hidx
    rw [List.map_map] at h
    exact h
  · refine List.Pairwise.filterMap (pointerKey d) (fun x y hxy k hk k' hk' hkk => hxy ?_)
      (List.pairwise_map.1 hd)
    exact DirectoryKind.pointerTag?_inj (pointerKey_eq_some hk) (hkk ▸ pointerKey_eq_some hk')
  · rintro a ha b hb rfl
    obtain ⟨xi, -, rfl⟩ := List.mem_map.1 ha
    obtain ⟨x, -, hx⟩ := List.mem_filterMap.1 hb
    exact (Directory.pointerTag?_ne_thumbnail (pointerKey_eq_some hx)).1 rfl

end OfDraft

/-- A plan with its items placed: the items stand for the same parts, in the same order, and the
byte order, the pointers, the chain and the root stay. -/
structure Placed (p₀ p : Plan) : Prop where
  byteOrder : p.byteOrder = p₀.byteOrder
  pointers : p.pointers = p₀.pointers
  chain : p.chain = p₀.chain
  root : p.root = p₀.root
  parts : p.items.map (·.part) = p₀.items.map (·.part)

theorem Placed.part {p₀ p : Plan} (h : p₀.Placed p) (n : Nat) :
    (p.items[n]?).map (·.part) = (p₀.items[n]?).map (·.part) := by
  rw [← List.getElem?_map, ← List.getElem?_map, h.parts]

/-- With one item per part, the table of a directory is the item with its part. -/
theorem tableItem?_of_part {p : Plan} (hnd : (p.items.map (·.part)).Nodup) {id : Nat} {it : Item}
    {i : Nat} (hit : p.items[id]? = some it) (hpart : it.part = .table i) : p.tableItem? i = some id := by
  unfold tableItem?
  rw [← hpart]
  exact findIdx?_of_nodup_map hnd hit

theorem ofDraft_byteOrder {d : Draft} {root : Nat} {p : Plan} (h : ofDraft d root = .ok p) :
    p.byteOrder = d.byteOrder := by
  obtain ⟨g, -, h⟩ := bind_eq_ok.1 h
  simp only [pure, Except.pure, Except.ok.injEq] at h
  rw [← h]

/-- Every pointer of a placed plan names the thumbnail of its directory or the table of a child
kind that hangs below its directory by a pointer field. -/
theorem Placed.pointer {d : Draft} {root : Nat} {p₀ p : Plan} (hof : ofDraft d root = .ok p₀)
    (hp : p₀.Placed p) {q : Pointer} (hq : q ∈ p.pointers) :
    (q.tag = Tag.thumbnailOffset ∧ (p.items[q.target]?).map (·.part) = some (.thumbnail q.dir)) ∨
      ∃ c x pk, d.dirs[c]? = some x ∧ x.kind.pointerTag? = some q.tag ∧
        x.kind.parent? = some pk ∧ d.indexOf? pk = some q.dir ∧
        (p.items[q.target]?).map (·.part) = some (.table c) := by
  rw [hp.part]
  exact (ofDraft_pointers hof).1 q (hp.pointers ▸ hq)

theorem Placed.pointer_structural {d : Draft} {root : Nat} {p₀ p : Plan}
    (hof : ofDraft d root = .ok p₀) (hp : p₀.Placed p) {q : Pointer} (hq : q ∈ p.pointers) :
    q.tag.isStructural = true := by
  rcases hp.pointer hof hq with ⟨htag, -⟩ | ⟨c, x, pk, -, ht, -⟩
  · rw [htag]
    decide
  · exact Tag.isStructural_of_linkedKind? (DirectoryKind.linkedKind?_pointerTag? ht)

/-- Pointers name structural fields only, so patching leaves every other field where it was. -/
theorem Patched.getElem?_of_plain {d : Draft} {root : Nat} {p₀ p : Plan}
    (hof : ofDraft d root = .ok p₀) (hp : p₀.Placed p) {i : Nat} {x x' : Directory}
    (hP : Patched p p.pointers i x x') {j : Nat} {f : Field} (hf : x.fields[j]? = some f)
    (hns : f.tag.isStructural = false) : x'.fields[j]? = some f := by
  have hj : j < x'.fields.length := hP.length ▸ (List.getElem?_eq_some_iff.1 hf).1
  rcases hP.field j f _ hf (List.getElem?_eq_getElem hj) with ⟨heq, -⟩ | ⟨q, hq, -, htag, -⟩
  · rw [List.getElem?_eq_getElem hj, heq]
  · have hstruct := Placed.pointer_structural hof hp hq
    rw [htag, hns] at hstruct
    cases hstruct

theorem exists_pointer_of_key {d : Draft} {root : Nat} {p : Plan} (hof : ofDraft d root = .ok p)
    {k : Nat × Tag} (hk : k ∈ ((d.dirs.zipIdx.filter (·.1.thumbnail.isSome)).map
      fun xi => (xi.2, Tag.thumbnailOffset)) ++ d.dirs.filterMap (pointerKey d)) :
    ∃ q ∈ p.pointers, q.dir = k.1 ∧ q.tag = k.2 := by
  rw [← (ofDraft_pointers hof).2.1] at hk
  obtain ⟨q, hq, rfl⟩ := List.mem_map.1 hk
  exact ⟨q, hq, rfl, rfl⟩

/-- Fields related pointwise, equal where `P` holds and agreeing on `P`, keep the same fields
where `P` holds. -/
theorem filter_eq_of_forall₂ {P : Field → Bool} {l l' : List Field}
    (h : List.Forall₂ (fun f f' => P f' = P f ∧ (P f = true → f' = f)) l l') :
    l'.filter P = l.filter P := by
  induction h with
  | nil => rfl
  | @cons f f' l l' hr _ ih =>
    obtain ⟨hP, heq⟩ := hr
    by_cases hf : P f = true
    · rw [List.filter_cons_of_pos (hP ▸ hf), List.filter_cons_of_pos hf, heq hf, ih]
    · rw [List.filter_cons_of_neg (by rw [hP]; exact hf), List.filter_cons_of_neg hf, ih]

section Patched

variable {p : Plan} {qs : List Pointer} {i : Nat} {x x' : Directory}

/-- Every written field comes from a field of the directory, as `Patched` says. -/
theorem Patched.mem_right (h : Patched p qs i x x') {f' : Field} (hf' : f' ∈ x'.fields) :
    ∃ f ∈ x.fields, (f' = f ∧ ∀ q ∈ qs, q.dir = i → q.tag ≠ f.tag) ∨
      ∃ q ∈ qs, q.dir = i ∧ q.tag = f.tag ∧ ∃ off, p.itemOffset q.target = .ok off ∧
        off < Width.bits32.bound ∧ f' = f.setBytes 1 ⟨(p.byteOrder.encode 4 off).toArray⟩ := by
  obtain ⟨j, hj, rfl⟩ := List.getElem_of_mem hf'
  have hj' : j < x.fields.length := h.length ▸ hj
  exact ⟨x.fields[j], List.getElem_mem hj',
    h.field j _ _ (List.getElem?_eq_getElem hj') (List.getElem?_eq_getElem hj)⟩

/-- Every field of the directory is written, as `Patched` says. -/
theorem Patched.mem_left (h : Patched p qs i x x') {f : Field} (hf : f ∈ x.fields) :
    ∃ f' ∈ x'.fields, (f' = f ∧ ∀ q ∈ qs, q.dir = i → q.tag ≠ f.tag) ∨
      ∃ q ∈ qs, q.dir = i ∧ q.tag = f.tag ∧ ∃ off, p.itemOffset q.target = .ok off ∧
        off < Width.bits32.bound ∧ f' = f.setBytes 1 ⟨(p.byteOrder.encode 4 off).toArray⟩ := by
  obtain ⟨j, hj, rfl⟩ := List.getElem_of_mem hf
  have hj' : j < x'.fields.length := h.length ▸ hj
  exact ⟨x'.fields[j], List.getElem_mem hj',
    h.field j _ _ (List.getElem?_eq_getElem hj) (List.getElem?_eq_getElem hj')⟩

theorem Patched.tag_eq {f f' : Field} (h : (f' = f ∧ ∀ q ∈ qs, q.dir = i → q.tag ≠ f.tag) ∨
      ∃ q ∈ qs, q.dir = i ∧ q.tag = f.tag ∧ ∃ off, p.itemOffset q.target = .ok off ∧
        off < Width.bits32.bound ∧ f' = f.setBytes 1 ⟨(p.byteOrder.encode 4 off).toArray⟩) :
    f'.tag = f.tag := by
  rcases h with ⟨rfl, -⟩ | ⟨-, -, -, -, -, -, -, rfl⟩ <;> rfl

theorem Patched.tags (h : Patched p qs i x x') : x'.fields.map (·.tag) = x.fields.map (·.tag) := by
  apply List.ext_getElem (by simp [h.length])
  intro j h₁ h₂
  simp only [List.getElem_map]
  simp only [List.length_map] at h₁ h₂
  exact Patched.tag_eq (h.field j _ _ (List.getElem?_eq_getElem h₂) (List.getElem?_eq_getElem h₁))

/-- Pointers name structural fields only, so the other fields are as they were. -/
theorem Patched.filter_nonstructural (h : Patched p qs i x x') (hqs : ∀ q ∈ qs, q.tag.isStructural) :
    x'.fields.filter (fun f => !f.tag.isStructural) = x.fields.filter (fun f => !f.tag.isStructural) := by
  apply filter_eq_of_forall₂
  refine List.forall₂_iff_get.2 ⟨h.length.symm, fun j h₁ h₂ => ?_⟩
  simp only [List.get_eq_getElem]
  rcases h.field j _ _ (List.getElem?_eq_getElem h₁) (List.getElem?_eq_getElem h₂) with
    ⟨heq, -⟩ | ⟨q, hq, -, htag, _, -, -, heq⟩
  · exact ⟨by rw [heq], fun _ => heq⟩
  · refine ⟨by rw [heq]; rfl, fun hns => ?_⟩
    have := hqs q hq
    rw [htag] at this
    simp [this] at hns

end Patched

/-- Directory `x`, the `i`-th of draft `d`, as the plan `p` writes it: `x'` keeps the kind, the
thumbnail and, sorted by tag, the fields of `x` without structural tags; its structural fields
are single LONGs, one for each present child that hangs below it by a pointer field, with the
offset of the child's table, and for a thumbnail one with the thumbnail's offset and one with its
length. -/
structure Filled (p : Plan) (d : Draft) (i : Nat) (x x' : Directory) : Prop where
  kind : x'.kind = x.kind
  thumbnail : x'.thumbnail = x.thumbnail
  nodup : (x'.fields.map (·.tag)).Nodup
  normal : (x'.fields.filter fun f => !f.tag.isStructural).map Field.forget =
    Directory.normalFields x.fields
  pointer : ∀ f ∈ x'.fields, ∀ c, f.tag.linkedKind? = some c → DirectoryKind.PointerChild c x.kind ∧
    ∃ ci v, d.indexOf? c = some ci ∧ p.dirOffset ci = .ok v ∧ f.IsWord p.byteOrder v
  pointerField : ∀ c ∈ d.dirs.map (·.kind), DirectoryKind.PointerChild c x.kind →
    ∃ f ∈ x'.fields, c.pointerTag? = some f.tag
  thumbnailOffset : ∀ f ∈ x'.fields, f.tag = Tag.thumbnailOffset → ∃ th, x.thumbnail = some th ∧
    ∃ id it v, p.items[id]? = some it ∧ it.part = .thumbnail i ∧ p.itemOffset id = .ok v ∧
      f.IsWord p.byteOrder v
  thumbnailLength : ∀ f ∈ x'.fields, f.tag = Tag.thumbnailLength → ∃ th, x.thumbnail = some th ∧
    f.IsWord p.byteOrder th.size
  thumbnailFields : ∀ th, x.thumbnail = some th →
    (∃ f ∈ x'.fields, f.tag = Tag.thumbnailOffset) ∧ ∃ f ∈ x'.fields, f.tag = Tag.thumbnailLength

section Filled

variable {d d₂ : Draft} {p₀ p : Plan}

theorem plan_kinds (hwf : d.Coherent) (hplan : d.plan = (d₂, .ok p₀)) :
    d₂.dirs.map (·.kind) = d.dirs.map (·.kind) := by
  obtain ⟨root, -, -, hsyn, -⟩ := Draft.plan_eq_ok hplan
  rw [Draft.synthesize_eq_ok hsyn hwf.distinctTags, Directory.kinds_sortFields_withPlaceholders]

theorem plan_byteOrder (hwf : d.Coherent) (hplan : d.plan = (d₂, .ok p₀)) (hp : p₀.Placed p) :
    p.byteOrder = d.byteOrder := by
  obtain ⟨root, -, -, hsyn, hof⟩ := Draft.plan_eq_ok hplan
  rw [hp.byteOrder, ofDraft_byteOrder hof, Draft.synthesize_eq_ok hsyn hwf.distinctTags]

/-- Directory `i` of a planned draft is the draft's directory `i` with its placeholders, in tag
order. -/
theorem plan_dir (hwf : d.Coherent) (hplan : d.plan = (d₂, .ok p₀)) {i : Nat} {x : Directory}
    (hx : d.dirs[i]? = some x) :
    d₂.dirs[i]? = some ((x.withPlaceholders (d.dirs.map (·.kind)) d.byteOrder).sortFields) := by
  obtain ⟨root, -, -, hsyn, -⟩ := Draft.plan_eq_ok hplan
  rw [Draft.synthesize_eq_ok hsyn hwf.distinctTags, List.getElem?_map, hx]
  rfl

/-- A field with a linked tag in a patched directory is the placeholder of a child present in the
draft, written with the offset of the child's table. -/
theorem filled_pointer (hwf : d.Coherent) (hplan : d.plan = (d₂, .ok p₀)) (hp : p₀.Placed p)
    {i : Nat} {x x' : Directory} (hx : d.dirs[i]? = some x)
    (hP : Patched p p.pointers i ((x.withPlaceholders (d.dirs.map (·.kind)) d.byteOrder).sortFields) x')
    {f' : Field} (hf' : f' ∈ x'.fields) {c : DirectoryKind} (hc : f'.tag.linkedKind? = some c) :
    DirectoryKind.PointerChild c x.kind ∧
      ∃ ci v, d.indexOf? c = some ci ∧ p.dirOffset ci = .ok v ∧ f'.IsWord p.byteOrder v := by
  obtain ⟨root, -, -, hsyn, hof⟩ := Draft.plan_eq_ok hplan
  have hkinds := hwf.nodup_kinds
  have hdir₂ : ∀ j : Nat, d₂.dirs[j]? = (d.dirs[j]?).map
      fun y : Directory => (y.withPlaceholders (d.dirs.map (·.kind)) d.byteOrder).sortFields := by
    intro j
    rw [Draft.synthesize_eq_ok hsyn hwf.distinctTags, List.getElem?_map]
  have hindex : ∀ (j : Nat) (y : Directory), d.dirs[j]? = some y → d₂.indexOf? y.kind = some j := by
    intro j y hy
    have hkinds₂ : (d₂.dirs.map (·.kind)).Nodup := by
      rw [plan_kinds hwf hplan]
      exact hkinds
    exact Draft.indexOf?_of_getElem? hkinds₂
      (x := (y.withPlaceholders (d.dirs.map (·.kind)) d.byteOrder).sortFields) (by rw [hdir₂, hy]; rfl)
  have hparts : (p.items.map (·.part)).Nodup := by
    rw [hp.parts]
    exact ofDraft_nodup_parts hof
  obtain ⟨f, hf, hrw⟩ := hP.mem_right hf'
  rw [Patched.tag_eq hrw] at hc
  rcases Directory.mem_sortFields_withPlaceholders.1 hf with ⟨-, hns⟩ | hptr | hth
  · rw [Tag.isStructural_of_linkedKind? hc] at hns
    cases hns
  · obtain ⟨c', hc', hpar, t, ht, rfl⟩ := Directory.mem_pointerFields.1 hptr
    have hcc : c' = c := by
      have hlinked := DirectoryKind.linkedKind?_pointerTag? ht
      simp only [Field.long, Field.raw] at hc
      rw [hc] at hlinked
      exact (Option.some.inj hlinked).symm
    subst hcc
    refine ⟨⟨hpar, by simp [ht]⟩, ?_⟩
    obtain ⟨y, hy, rfl⟩ := List.mem_map.1 hc'
    obtain ⟨ci, hci, hyi⟩ := List.getElem_of_mem hy
    have hyci : d.dirs[ci]? = some y := by rw [List.getElem?_eq_getElem hci, hyi]
    obtain ⟨q, hq, hqdir, hqtag⟩ := exists_pointer_of_key hof (k := (i, t)) (List.mem_append_right _
      (List.mem_filterMap.2 ⟨_, List.mem_of_getElem? (by rw [hdir₂, hyci]; rfl),
        by simp [pointerKey, Directory.sortFields, Directory.withPlaceholders, hpar, hindex i x hx, ht]⟩))
    rcases hrw with ⟨-, hnone⟩ | ⟨q', hq', -, htag', off, hoff, hlt, rfl⟩
    · exact absurd hqtag (hnone q (by rw [hp.pointers]; exact hq) hqdir)
    · rcases hp.pointer hof hq' with ⟨hth, -⟩ | ⟨c'', z, pk, hz, hzt, -, -, hpart⟩
      · exact absurd (htag'.symm.trans hth) (Directory.pointerTag?_ne_thumbnail ht).1
      · have hzk : z.kind = y.kind := DirectoryKind.pointerTag?_inj hzt (htag'.symm ▸ ht)
        obtain ⟨it, hit, hitpart⟩ := Option.map_eq_some_iff.1 hpart
        rw [hdir₂] at hz
        obtain ⟨z₀, hz₀, rfl⟩ := Option.map_eq_some_iff.1 hz
        refine ⟨c'', off, ?_, ?_, Field.isWord_setBytes rfl _ hlt⟩
        · have hindex₀ := Draft.indexOf?_of_getElem? hkinds hz₀
          rw [← hzk]
          exact hindex₀
        · unfold dirOffset
          rw [tableItem?_of_part hparts hit hitpart]
          exact hoff
  · obtain ⟨th, -, hf₀⟩ := Directory.mem_thumbnailFields.1 hth
    rcases hf₀ with rfl | rfl <;>
      simp [Field.long, Field.raw, Tag.linkedKind?_thumbnailOffset, Tag.linkedKind?_thumbnailLength] at hc

/-- The thumbnail offset of a patched directory is written with the offset of its thumbnail's
item. -/
theorem filled_thumbnailOffset (hwf : d.Coherent) (hplan : d.plan = (d₂, .ok p₀))
    (hp : p₀.Placed p) {i : Nat} {x x' : Directory} (hx : d.dirs[i]? = some x)
    (hP : Patched p p.pointers i ((x.withPlaceholders (d.dirs.map (·.kind)) d.byteOrder).sortFields) x')
    {f' : Field} (hf' : f' ∈ x'.fields) (hft : f'.tag = Tag.thumbnailOffset) :
    ∃ th, x.thumbnail = some th ∧ ∃ id it v, p.items[id]? = some it ∧ it.part = .thumbnail i ∧
      p.itemOffset id = .ok v ∧ f'.IsWord p.byteOrder v := by
  obtain ⟨root, -, -, -, hof⟩ := Draft.plan_eq_ok hplan
  obtain ⟨f, hf, hrw⟩ := hP.mem_right hf'
  have htag : f.tag = Tag.thumbnailOffset := (Patched.tag_eq hrw).symm.trans hft
  rcases Directory.mem_sortFields_withPlaceholders.1 hf with ⟨-, hns⟩ | hptr | hth
  · rw [htag] at hns
    cases hns
  · obtain ⟨c, -, -, t, ht, rfl⟩ := Directory.mem_pointerFields.1 hptr
    exact absurd htag (Directory.pointerTag?_ne_thumbnail ht).1
  · obtain ⟨th, hth, hf₀⟩ := Directory.mem_thumbnailFields.1 hth
    refine ⟨th, hth, ?_⟩
    obtain ⟨q, hq, hqdir, hqtag⟩ := exists_pointer_of_key hof (k := (i, Tag.thumbnailOffset))
      (List.mem_append_left _ (List.mem_map.2 ⟨(_, i), List.mem_filter.2
        ⟨List.mk_mem_zipIdx_iff_getElem?.2 (plan_dir hwf hplan hx), by simp [Directory.sortFields,
          Directory.withPlaceholders, hth]⟩, rfl⟩))
    rcases hrw with ⟨-, hnone⟩ | ⟨q', hq', hdir', htag', off, hoff, hlt, rfl⟩
    · exact absurd (hqtag.trans htag.symm) (hnone q (by rw [hp.pointers]; exact hq) hqdir)
    · rcases hp.pointer hof hq' with ⟨-, hpart⟩ | ⟨c, z, pk, -, hzt, -⟩
      · obtain ⟨it, hit, hitpart⟩ := Option.map_eq_some_iff.1 hpart
        have hftype : f.type = .long := by rcases hf₀ with rfl | rfl <;> rfl
        exact ⟨q'.target, it, off, hit, hdir' ▸ hitpart, hoff, Field.isWord_setBytes hftype _ hlt⟩
      · exact absurd (htag'.trans htag) (Directory.pointerTag?_ne_thumbnail hzt).1

/-- The thumbnail length of a patched directory is written as planned, with the size of its
thumbnail: no pointer names it. -/
theorem filled_thumbnailLength (hwf : d.Coherent) (hplan : d.plan = (d₂, .ok p₀))
    (hp : p₀.Placed p) {i : Nat} {x x' : Directory} (hxmem : x ∈ d.dirs)
    (hP : Patched p p.pointers i ((x.withPlaceholders (d.dirs.map (·.kind)) d.byteOrder).sortFields) x')
    {f' : Field} (hf' : f' ∈ x'.fields) (hft : f'.tag = Tag.thumbnailLength) :
    ∃ th, x.thumbnail = some th ∧ f'.IsWord p.byteOrder th.size := by
  obtain ⟨root, -, -, hsyn, hof⟩ := Draft.plan_eq_ok hplan
  obtain ⟨f, hf, hrw⟩ := hP.mem_right hf'
  have htag : f.tag = Tag.thumbnailLength := (Patched.tag_eq hrw).symm.trans hft
  rcases Directory.mem_sortFields_withPlaceholders.1 hf with ⟨-, hns⟩ | hptr | hth
  · rw [htag] at hns
    cases hns
  · obtain ⟨c, -, -, t, ht, rfl⟩ := Directory.mem_pointerFields.1 hptr
    exact absurd htag (Directory.pointerTag?_ne_thumbnail ht).2
  · obtain ⟨th, hthumb, rfl | rfl⟩ := Directory.mem_thumbnailFields.1 hth
    · exact absurd htag Tag.thumbnailOffset_ne_length
    · refine ⟨th, hthumb, ?_⟩
      rcases hrw with ⟨rfl, -⟩ | ⟨q', hq', -, htag', -⟩
      · rw [plan_byteOrder hwf hplan hp]
        exact Field.isWord_long _ _ (Draft.synthesize_thumbnail_lt hsyn hwf hxmem hthumb)
      · exfalso
        rcases hp.pointer hof hq' with ⟨hqt, -⟩ | ⟨c, z, pk, -, hzt, -⟩
        · exact Tag.thumbnailOffset_ne_length (hqt.symm.trans htag')
        · exact (Directory.pointerTag?_ne_thumbnail hzt).2 htag'

/-- One directory of a planned, placed and patched draft is filled. -/
theorem filled_dir (hwf : d.Coherent) (hplan : d.plan = (d₂, .ok p₀)) (hp : p₀.Placed p)
    {i : Nat} {x x' : Directory} (hx : d.dirs[i]? = some x)
    (hP : Patched p p.pointers i ((x.withPlaceholders (d.dirs.map (·.kind)) d.byteOrder).sortFields) x') :
    p.Filled d i x x' := by
  obtain ⟨root, -, -, -, hof⟩ := Draft.plan_eq_ok hplan
  have hxmem : x ∈ d.dirs := List.mem_of_getElem? hx
  refine ⟨hP.kind, hP.thumbnail, ?_, ?_, fun f' hf' c hc => filled_pointer hwf hplan hp hx hP hf' hc,
    ?_, fun f' hf' hft => filled_thumbnailOffset hwf hplan hp hx hP hf' hft,
    fun f' hf' hft => filled_thumbnailLength hwf hplan hp hxmem hP hf' hft, ?_⟩
  · rw [hP.tags]
    exact Directory.nodup_sortFields_withPlaceholders (hwf.distinctTags x hxmem) hwf.nodup_kinds
  · rw [hP.filter_nonstructural fun q hq => hp.pointer_structural hof hq]
    exact Directory.forget_filter_sortFields_withPlaceholders _ _ (hwf.distinctTags x hxmem)
  · intro c hc hchild
    obtain ⟨t, ht⟩ := Option.isSome_iff_exists.1 hchild.2
    have hmem : Field.long t 0 d.byteOrder ∈
        (x.withPlaceholders (d.dirs.map (·.kind)) d.byteOrder).sortFields.fields :=
      Directory.mem_sortFields_withPlaceholders.2 (.inr (.inl
        (Directory.mem_pointerFields.2 ⟨c, hc, hchild.1, t, ht, rfl⟩)))
    obtain ⟨f', hf', hrw⟩ := hP.mem_left hmem
    exact ⟨f', hf', by rw [ht, Patched.tag_eq hrw]; rfl⟩
  · intro th hth
    have hoff : Field.long Tag.thumbnailOffset 0 d.byteOrder ∈
        (x.withPlaceholders (d.dirs.map (·.kind)) d.byteOrder).sortFields.fields :=
      Directory.mem_sortFields_withPlaceholders.2 (.inr (.inr
        (Directory.mem_thumbnailFields.2 ⟨th, hth, .inl rfl⟩)))
    have hlen : Field.long Tag.thumbnailLength th.size d.byteOrder ∈
        (x.withPlaceholders (d.dirs.map (·.kind)) d.byteOrder).sortFields.fields :=
      Directory.mem_sortFields_withPlaceholders.2 (.inr (.inr
        (Directory.mem_thumbnailFields.2 ⟨th, hth, .inr rfl⟩)))
    obtain ⟨f₁, hf₁, hrw₁⟩ := hP.mem_left hoff
    obtain ⟨f₂, hf₂, hrw₂⟩ := hP.mem_left hlen
    exact ⟨⟨f₁, hf₁, Patched.tag_eq hrw₁⟩, ⟨f₂, hf₂, Patched.tag_eq hrw₂⟩⟩

/-- Writing the pointers of a planned and placed well-formed draft leaves every pointer field
holding its target's offset and every other field as it was. -/
theorem patch_patched (hwf : d.Coherent) (hplan : d.plan = (d₂, .ok p₀)) (hp : p₀.Placed p)
    {d₃ : Draft} (hpatch : p.patch d₂ = (d₃, .ok ())) :
    d₃.byteOrder = d₂.byteOrder ∧ d₃.dirs.length = d₂.dirs.length ∧
      ∀ i x, d₂.dirs[i]? = some x → ∃ x', d₃.dirs[i]? = some x' ∧ Patched p p.pointers i x x' := by
  obtain ⟨root, -, -, hsyn, hof⟩ := Draft.plan_eq_ok hplan
  have hd₂ := Draft.synthesize_eq_ok hsyn hwf.distinctTags
  have hkeys : (p.pointers.map fun q => (q.dir, q.tag)).Nodup := by
    rw [hp.pointers]
    refine ofDraft_keys_nodup hof ?_
    rw [plan_kinds hwf hplan]
    exact hwf.nodup_kinds
  have htags : ∀ y ∈ d₂.dirs, (y.fields.map (·.tag)).Nodup := by
    rw [hd₂]
    intro y hy
    obtain ⟨x, hx, rfl⟩ := List.mem_map.1 hy
    exact Directory.nodup_sortFields_withPlaceholders (hwf.distinctTags x hx) hwf.nodup_kinds
  exact patchFrom_patched hpatch hkeys htags

/-- Planning a well-formed draft, placing the items and writing the pointers fills every
directory. -/
theorem filled (hwf : d.Coherent) (hplan : d.plan = (d₂, .ok p₀)) (hp : p₀.Placed p)
    {d₃ : Draft} (hpatch : p.patch d₂ = (d₃, .ok ())) :
    d₃.byteOrder = d.byteOrder ∧ d₃.dirs.length = d.dirs.length ∧
      ∀ i x, d.dirs[i]? = some x → ∃ x', d₃.dirs[i]? = some x' ∧ p.Filled d i x x' := by
  obtain ⟨root, -, -, hsyn, -⟩ := Draft.plan_eq_ok hplan
  have hd₂ := Draft.synthesize_eq_ok hsyn hwf.distinctTags
  obtain ⟨hbo, hlen, hpatched⟩ := patch_patched hwf hplan hp hpatch
  refine ⟨by rw [hbo, hd₂], by rw [hlen, hd₂, List.length_map], fun i x hx => ?_⟩
  obtain ⟨x', hx', hP⟩ := hpatched i _ (by rw [hd₂, List.getElem?_map, hx]; rfl)
  exact ⟨x', hx', filled_dir hwf hplan hp hx hP⟩

end Filled

end Plan

end TiffLayout
