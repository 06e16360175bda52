import TiffLayout.Proofs.GapImage
/-! Writing sees a draft only up to the order of its fields and its structural fields: drafts alike
in everything else are written alike. -/
namespace TiffLayout

namespace Directory

/-- Two directories alike up to the order of their fields and their fields with structural
tags: the same kind and thumbnail, and the same other fields in some order. -/
structure Similar (x y : Directory) : Prop where
  kind : x.kind = y.kind
  thumbnail : x.thumbnail = y.thumbnail
  fields : (x.fields.filter fun f => !f.tag.isStructural).Perm
    (y.fields.filter fun f => !f.tag.isStructural)

/-- In fields with distinct tags, the lookup of a tag finds the one field with it. -/
theorem find?_tag_eq_some_iff {fs : List Field} (hd : (fs.map (·.tag)).Nodup) {t : Tag}
    {f : Field} : fs.find? (·.tag = t) = some f ↔ f ∈ fs ∧ f.tag = t := by
  constructor
  · intro h
    exact ⟨List.mem_of_find?_eq_some h, by simpa using List.find?_some h⟩
  · rintro ⟨hf, rfl⟩
    obtain ⟨g, hg⟩ : ∃ g, fs.find? (·.tag = f.tag) = some g :=
      Option.isSome_iff_exists.1 (List.find?_isSome.2 ⟨f, hf, by simp⟩)
    have hgt : g.tag = f.tag := by simpa using List.find?_some hg
    rw [hg, List.inj_on_of_nodup_map hd (List.mem_of_find?_eq_some hg) hf hgt]

/-- Lookups by tag agree on fields with distinct tags that are the same up to order. -/
theorem find?_tag_of_perm {l₁ l₂ : List Field} (hp : l₁.Perm l₂) (hd : (l₁.map (·.tag)).Nodup)
    (t : Tag) : l₁.find? (·.tag = t) = l₂.find? (·.tag = t) := by
  have hd₂ : (l₂.map (·.tag)).Nodup := (hp.map _).nodup_iff.1 hd
  cases h : l₁.find? (·.tag = t) with
  | none =>
    rw [List.find?_eq_none] at h
    symm
    rw [List.find?_eq_none]
    intro f hf
    exact h f (hp.mem_iff.2 hf)
  | some f =>
    obtain ⟨hf, hft⟩ := (find?_tag_eq_some_iff hd).1 h
    exact ((find?_tag_eq_some_iff hd₂).2 ⟨hp.mem_iff.1 hf, hft⟩).symm

/-- A lookup of a tag that is not structural sees only the fields without structural tags. -/
theorem find?_eq_filter (x : Directory) {t : Tag} (ht : t.isStructural = false) :
    x.find? t = (x.fields.filter fun f => !f.tag.isStructural).find? (·.tag = t) := by
  rw [find?, List.find?_filter]
  congr 1
  funext f
  by_cases h : f.tag = t
  · simp [h, ht]
  · simp [h]

section Similar

variable {x y : Directory}

/-- Alike directories with distinct tags find the same field of a tag that is not structural. -/
theorem Similar.find? (h : x.Similar y) (hx : (x.fields.map (·.tag)).Nodup) {t : Tag}
    (ht : t.isStructural = false) : x.find? t = y.find? t := by
  rw [find?_eq_filter x ht, find?_eq_filter y ht]
  exact find?_tag_of_perm h.fields (hx.sublist (List.filter_sublist.map _)) t

/-- Changing the field with a tag, keeping tags, keeps directories with distinct tags alike. -/
theorem Similar.updateField (h : x.Similar y) (hx : (x.fields.map (·.tag)).Nodup)
    (hy : (y.fields.map (·.tag)).Nodup) {t : Tag} {g : Field → Field}
    (hg : ∀ f, (g f).tag = f.tag) : (x.updateField t g).Similar (y.updateField t g) where
  kind := h.kind
  thumbnail := h.thumbnail
  fields := by
    simp only [Directory.updateField, updateField_go_eq hx, updateField_go_eq hy, List.filter_map]
    have hsame : ((fun f : Field => !f.tag.isStructural) ∘ fun f => if f.tag = t then g f else f) =
        fun f => !f.tag.isStructural := by
      funext f
      by_cases hf : f.tag = t <;> simp [hf, hg]
    rw [hsame]
    exact h.fields.map _

end Similar

end Directory

namespace Draft

/-- Two drafts alike but in the order of fields and in structural fields: the same byte order
and, directory by directory, the same kind, thumbnail and fields without structural tags. -/
structure Similar (d₁ d₂ : Draft) : Prop where
  byteOrder : d₁.byteOrder = d₂.byteOrder
  dirs : List.Forall₂ Directory.Similar d₁.dirs d₂.dirs

theorem kinds_of_forall₂ : ∀ {xs ys : List Directory}, List.Forall₂ Directory.Similar xs ys →
    xs.map (·.kind) = ys.map (·.kind)
  | [], [], .nil => rfl
  | _ :: _, _ :: _, .cons h hs => by rw [List.map_cons, List.map_cons, h.kind, kinds_of_forall₂ hs]

theorem Similar.kinds {d₁ d₂ : Draft} (h : d₁.Similar d₂) :
    d₁.dirs.map (·.kind) = d₂.dirs.map (·.kind) :=
  kinds_of_forall₂ h.dirs

/-- Keeping the offset of a value of a tag that is not structural does the same in alike
directories with distinct tags, and leaves them alike. -/
theorem keepOffsetIn_similar {t : Tag} (ht : t.isStructural = false) (v : ByteArray) (q : Nat) :
    ∀ {xs ys : List Directory}, List.Forall₂ Directory.Similar xs ys →
      (∀ x ∈ xs, (x.fields.map (·.tag)).Nodup) → (∀ y ∈ ys, (y.fields.map (·.tag)).Nodup) →
      (keepOffsetIn t v q xs).2 = (keepOffsetIn t v q ys).2 ∧
        List.Forall₂ Directory.Similar (keepOffsetIn t v q xs).1 (keepOffsetIn t v q ys).1
  | [], [], .nil, _, _ => ⟨rfl, .nil⟩
  | x :: xs, y :: ys, .cons hxy hrest, hx, hy => by
    have hfind := hxy.find? (hx x List.mem_cons_self) ht
    unfold keepOffsetIn
    rw [hfind]
    split
    · split
      · exact ⟨rfl, .cons (hxy.updateField (hx x List.mem_cons_self) (hy y List.mem_cons_self)
          fun _ => rfl) hrest⟩
      · exact ⟨rfl, .cons hxy hrest⟩
    · have ih := keepOffsetIn_similar ht v q hrest
        (fun x' hx' => hx x' (List.mem_cons_of_mem x hx')) fun y' hy' => hy y' (List.mem_cons_of_mem y hy')
      rcases hk₁ : keepOffsetIn t v q xs with ⟨rest₁, kept₁⟩
      rcases hk₂ : keepOffsetIn t v q ys with ⟨rest₂, kept₂⟩
      rw [hk₁, hk₂] at ih
      exact ⟨ih.1, .cons hxy ih.2⟩

/-- Every directory has distinct tags. -/
def DistinctTags (d : Draft) : Prop := ∀ x ∈ d.dirs, (x.fields.map (·.tag)).Nodup

/-- A directory of a draft that differs from another only in kept offsets matches a directory of
the other in all but the offsets its fields keep. -/
theorem exists_of_clear {d d' : Draft} (h : d'.clearKeptOffsets = d.clearKeptOffsets)
    {x' : Directory} (hx' : x' ∈ d'.dirs) :
    ∃ x ∈ d.dirs, x'.kind = x.kind ∧ x'.byteOrder = x.byteOrder ∧ x'.thumbnail = x.thumbnail ∧
      x'.fields.map (·.tag) = x.fields.map (·.tag) := by
  have hdirs := congrArg (·.dirs) h
  simp only [clearKeptOffsets] at hdirs
  have hmem : ({ x' with fields := x'.fields.map fun f : Field => { f with keptOffset := none } } :
      Directory) ∈ d.dirs.map fun x : Directory =>
        { x with fields := x.fields.map fun f : Field => { f with keptOffset := none } } :=
    hdirs ▸ List.mem_map_of_mem hx'
  obtain ⟨x, hx, heq⟩ := List.mem_map.1 hmem
  have htags := congrArg (fun y : Directory => y.fields.map (·.tag)) heq
  simp only [List.map_map, Function.comp_def] at htags
  exact ⟨x, hx, (congrArg (·.kind) heq).symm, (congrArg (·.byteOrder) heq).symm,
    (congrArg (·.thumbnail) heq).symm, htags.symm⟩

/-- Keeping offsets keeps a draft coherent. -/
theorem Coherent.of_clear {d d' : Draft} (hd : d.Coherent) (h : d'.clearKeptOffsets = d.clearKeptOffsets) :
    d'.Coherent where
  sorted := by
    have hkinds := congrArg (fun d : Draft => d.dirs.map (·.kind.rank)) h
    simp only [clearKeptOffsets, List.map_map, Function.comp_def] at hkinds
    rw [hkinds]
    exact hd.sorted
  byteOrder x' hx' := by
    obtain ⟨x, hx, -, hbo, -, -⟩ := exists_of_clear h hx'
    rw [hbo, hd.byteOrder x hx]
    exact congrArg (·.byteOrder) h.symm
  distinctTags x' hx' := by
    obtain ⟨x, hx, -, -, -, htags⟩ := exists_of_clear h hx'
    rw [htags]
    exact hd.distinctTags x hx
  thumbnails x' hx' t ht := by
    obtain ⟨x, hx, -, -, hth, -⟩ := exists_of_clear h hx'
    exact hd.thumbnails x hx t (hth ▸ ht)

/-- Keeping offsets keeps the tags of every directory distinct. -/
theorem DistinctTags.of_clear {d d' : Draft} (hd : d.DistinctTags)
    (h : d'.clearKeptOffsets = d.clearKeptOffsets) : d'.DistinctTags := by
  intro x' hx'
  obtain ⟨x, hx, -, -, -, htags⟩ := exists_of_clear h hx'
  rw [htags]
  exact hd x hx

/-- Keeping the offset of a value of a tag that is not structural does the same in alike drafts
with distinct tags, and leaves them alike. -/
theorem Similar.keepOffset {d₁ d₂ : Draft} (h : d₁.Similar d₂) (h₁ : d₁.DistinctTags)
    (h₂ : d₂.DistinctTags) {t : Tag} (ht : t.isStructural = false) (v : ByteArray) (q : Nat) :
    (d₁.keepOffset t v q).2 = (d₂.keepOffset t v q).2 ∧
      (d₁.keepOffset t v q).1.Similar (d₂.keepOffset t v q).1 ∧
      (d₁.keepOffset t v q).1.DistinctTags ∧ (d₂.keepOffset t v q).1.DistinctTags := by
  obtain ⟨hb, hdirs⟩ := keepOffsetIn_similar ht v q h.dirs h₁ h₂
  exact ⟨hb, ⟨h.byteOrder, hdirs⟩, h₁.of_clear (keepOffset_clear d₁ t v q),
    h₂.of_clear (keepOffset_clear d₂ t v q)⟩

end Draft

namespace Directory

/-- Alike directories with distinct tags and one byte order synthesize to one directory. -/
theorem Similar.sortFields_withPlaceholders {x y : Directory} (h : x.Similar y)
    (hbo : x.byteOrder = y.byteOrder) (hx : (x.fields.map (·.tag)).Nodup)
    {present : List DirectoryKind} (hp : present.Nodup) (o : ByteOrder) :
    (x.withPlaceholders present o).sortFields = (y.withPlaceholders present o).sortFields := by
  have hperm : (x.withPlaceholders present o).fields.Perm (y.withPlaceholders present o).fields := by
    simp only [withPlaceholders, List.append_assoc, h.kind, h.thumbnail]
    exact h.fields.append_right _
  have hfields : (x.withPlaceholders present o).sortFields.fields =
      (y.withPlaceholders present o).sortFields.fields :=
    eq_of_perm_of_sorted (((List.mergeSort_perm _ _).trans hperm).trans (List.mergeSort_perm _ _).symm)
      (((List.mergeSort_perm _ _).map _).nodup_iff.2 (nodup_withPlaceholders hx hp))
      (pairwise_mergeSort_tag _) (pairwise_mergeSort_tag _)
  obtain ⟨kx, bx, fx, tx⟩ := x
  obtain ⟨ky, bo, fy, ty⟩ := y
  obtain ⟨rfl, rfl⟩ : kx = ky ∧ tx = ty := ⟨h.kind, h.thumbnail⟩
  subst hbo
  simp only [sortFields, withPlaceholders] at hfields ⊢
  rw [hfields]

/-- Alike directories with distinct tags and one byte order synthesize alike, within one draft's
kinds and byte order. -/
theorem Similar.synthesize_sortFields {x y : Directory} (h : x.Similar y)
    (hbo : x.byteOrder = y.byteOrder) (hx : (x.fields.map (·.tag)).Nodup)
    (hy : (y.fields.map (·.tag)).Nodup) {present : List DirectoryKind} (hp : present.Nodup)
    (o : ByteOrder) :
    (do pure (← x.synthesize present o).sortFields) =
      (do pure (← y.synthesize present o).sortFields : Except LayoutError Directory) := by
  rw [synthesize_eq hx hp, synthesize_eq hy hp, h.thumbnail]
  cases y.thumbnail with
  | none => simp only [ok_bind, h.sortFields_withPlaceholders hbo hx hp o]
  | some th =>
    simp only
    cases checked (Width.bits32.narrow th.size) with
    | error e => rfl
    | ok n => simp only [Except.map, ok_bind, h.sortFields_withPlaceholders hbo hx hp o]

end Directory

namespace Draft

/-- The directories of alike coherent drafts synthesize alike. -/
theorem mapM_synthesize_similar {o : ByteOrder} {present : List DirectoryKind} (hp : present.Nodup) :
    ∀ {xs ys : List Directory}, List.Forall₂ Directory.Similar xs ys →
      (∀ x ∈ xs, x.byteOrder = o ∧ (x.fields.map (·.tag)).Nodup) →
      (∀ y ∈ ys, y.byteOrder = o ∧ (y.fields.map (·.tag)).Nodup) →
      xs.mapM (fun x => do pure (← x.synthesize present o).sortFields) =
        ys.mapM (fun x => do pure (← x.synthesize present o).sortFields)
  | [], [], .nil, _, _ => rfl
  | x :: xs, y :: ys, .cons hxy hrest, hx, hy => by
    obtain ⟨hbx, hdx⟩ := hx x List.mem_cons_self
    obtain ⟨hby, hdy⟩ := hy y List.mem_cons_self
    rw [List.mapM_cons, List.mapM_cons, hxy.synthesize_sortFields (hbx.trans hby.symm) hdx hdy hp o,
      mapM_synthesize_similar hp hrest (fun x' hx' => hx x' (List.mem_cons_of_mem x hx'))
        fun y' hy' => hy y' (List.mem_cons_of_mem y hy')]

section Similar

variable {d₁ d₂ : Draft}

/-- Alike coherent drafts synthesize to one draft. -/
theorem Similar.synthesize (h : d₁.Similar d₂) (h₁ : d₁.Coherent) (h₂ : d₂.Coherent) :
    d₁.synthesize = d₂.synthesize := by
  unfold Draft.synthesize
  dsimp only
  rw [h.kinds, h.byteOrder, mapM_synthesize_similar (h.kinds ▸ h₁.nodup_kinds) h.dirs
    (fun x hx => ⟨h.byteOrder ▸ h₁.byteOrder x hx, h₁.distinctTags x hx⟩)
    fun y hy => ⟨h₂.byteOrder y hy, h₂.distinctTags y hy⟩]

/-- The kind of the first directory whose parent is missing depends on the kinds alone. -/
theorem orphan?_kind (d : Draft) : d.orphan?.map (·.kind) = (d.dirs.map (·.kind)).find? fun k =>
    match k.parent? with
    | some p => !(d.dirs.map (·.kind)).any (· = p)
    | none => false := by
  simp only [orphan?, List.find?_map, List.any_map]
  rfl

/-- Alike coherent drafts are planned alike: the same plan or failure, and the same synthesized
draft when planning succeeds. -/
theorem Similar.plan (h : d₁.Similar d₂) (h₁ : d₁.Coherent) (h₂ : d₂.Coherent) :
    d₁.plan.2 = d₂.plan.2 ∧ ∀ p, d₁.plan.2 = .ok p → d₁.plan.1 = d₂.plan.1 := by
  have horphan : d₁.orphan?.map (·.kind) = d₂.orphan?.map (·.kind) := by
    rw [orphan?_kind, orphan?_kind, h.kinds]
  exact plan_congr (indexOf?_eq_of_kinds h.kinds .root) horphan (h.synthesize h₁ h₂)

end Similar

end Draft

namespace Draft

/-- Forgetting kept offsets changes nothing in a draft that keeps none. -/
theorem clearKeptOffsets_eq_self {d : Draft} (h : ∀ x ∈ d.dirs, ∀ f ∈ x.fields, f.keptOffset = none) :
    d.clearKeptOffsets = d := by
  obtain ⟨bo, dirs⟩ := d
  simp only [clearKeptOffsets, Draft.mk.injEq, true_and]
  refine (List.map_congr_left fun x hx => ?_).trans (List.map_id dirs)
  have hfields : x.fields.map (fun f : Field => { f with keptOffset := none }) = x.fields := by
    refine (List.map_congr_left fun f hf => ?_).trans (List.map_id _)
    have hnone := h x hx f hf
    cases f
    simp_all
  rw [hfields]
  rfl

end Draft

/-- A fold that gives equal first parts and related second parts, from related second parts, in
one step does so over a whole list. -/
theorem foldl_fst_eq {α β γ : Type} {f : α × β → γ → α × β} {R : β → β → Prop}
    (hf : ∀ (a : α) {b₁ b₂ : β} (c : γ), R b₁ b₂ →
      (f (a, b₁) c).1 = (f (a, b₂) c).1 ∧ R (f (a, b₁) c).2 (f (a, b₂) c).2) :
    ∀ (l : List γ) (a : α) {b₁ b₂ : β}, R b₁ b₂ →
      (l.foldl f (a, b₁)).1 = (l.foldl f (a, b₂)).1 ∧ R (l.foldl f (a, b₁)).2 (l.foldl f (a, b₂)).2
  | [], _, _, _, h => ⟨rfl, h⟩
  | c :: l, a, b₁, b₂, h => by
    have hstep := hf a c h
    rw [List.foldl_cons, List.foldl_cons]
    rcases h₁ : f (a, b₁) c with ⟨a₁, b₁'⟩
    rcases h₂ : f (a, b₂) c with ⟨a₂, b₂'⟩
    rw [h₁, h₂] at hstep
    obtain ⟨rfl, hsnd⟩ := hstep
    exact foldl_fst_eq hf l a₁ hsnd

namespace Gaps

variable {frozen : List Tag}

/-- The analysis of an entry gives alike drafts with distinct tags the same ranges and keeps
them alike, when no frozen tag is structural. -/
theorem ofEntry_similar (hfrozen : ∀ t ∈ frozen, t.isStructural = false) (acc : List Extent)
    {d₁ d₂ : Draft} (e : Entry) (h : d₁.Similar d₂ ∧ d₁.DistinctTags ∧ d₂.DistinctTags) :
    (ofEntry frozen (acc, d₁) e).1 = (ofEntry frozen (acc, d₂) e).1 ∧
      ((ofEntry frozen (acc, d₁) e).2.Similar (ofEntry frozen (acc, d₂) e).2 ∧
        (ofEntry frozen (acc, d₁) e).2.DistinctTags ∧ (ofEntry frozen (acc, d₂) e).2.DistinctTags) := by
  obtain ⟨tag, type, count, position, slot, value⟩ := e
  cases slot with
  | inline bs => exact ⟨rfl, h⟩
  | outOfLine p =>
    simp only [ofEntry]
    by_cases hc : frozen.contains tag = true
    · have hkeep := h.1.keepOffset h.2.1 h.2.2 (hfrozen tag (List.contains_iff_mem.1 hc)) value p
      rw [if_pos hc, if_pos hc]
      rcases hk₁ : d₁.keepOffset tag value p with ⟨d₁', b₁⟩
      rcases hk₂ : d₂.keepOffset tag value p with ⟨d₂', b₂⟩
      rw [hk₁, hk₂] at hkeep
      obtain ⟨rfl, hkeep⟩ := hkeep
      cases b₁
      · exact ⟨rfl, h⟩
      · exact ⟨rfl, hkeep⟩
    · rw [if_neg hc, if_neg hc]
      exact ⟨rfl, h⟩

/-- The analysis of a directory gives alike drafts with distinct tags the same ranges and keeps
them alike, when no frozen tag is structural. -/
theorem ofIfd_similar (hfrozen : ∀ t ∈ frozen, t.isStructural = false) (acc : List Extent)
    {d₁ d₂ : Draft} (x : Ifd) (h : d₁.Similar d₂ ∧ d₁.DistinctTags ∧ d₂.DistinctTags) :
    (ofIfd frozen (acc, d₁) x).1 = (ofIfd frozen (acc, d₂) x).1 ∧
      ((ofIfd frozen (acc, d₁) x).2.Similar (ofIfd frozen (acc, d₂) x).2 ∧
        (ofIfd frozen (acc, d₁) x).2.DistinctTags ∧ (ofIfd frozen (acc, d₂) x).2.DistinctTags) := by
  have hentries := foldl_fst_eq (ofEntry_similar hfrozen) x.entries
    (acc ++ [⟨x.offset, x.table.size⟩]) h
  unfold ofIfd
  dsimp only
  rcases h₁ : x.entries.foldl (ofEntry frozen) (acc ++ [⟨x.offset, x.table.size⟩], d₁) with ⟨a₁, b₁⟩
  rcases h₂ : x.entries.foldl (ofEntry frozen) (acc ++ [⟨x.offset, x.table.size⟩], d₂) with ⟨a₂, b₂⟩
  rw [h₁, h₂] at hentries
  obtain ⟨rfl, hrest⟩ := hentries
  rw [h₁, h₂]
  dsimp only
  split
  · exact ⟨rfl, hrest⟩
  · exact ⟨rfl, hrest⟩

/-- The analysis of an old segment gives alike drafts with distinct tags the same runs, or the
same failure, and leaves them alike, when no frozen tag is structural. -/
theorem analyze_similar (hfrozen : ∀ t ∈ frozen, t.isStructural = false) (old : ByteArray)
    (o : ByteOrder) {d₁ d₂ : Draft} (h : d₁.Similar d₂ ∧ d₁.DistinctTags ∧ d₂.DistinctTags) :
    (analyze old o d₁ frozen).map Prod.fst = (analyze old o d₂ frozen).map Prod.fst ∧
      ∀ runs d₁', analyze old o d₁ frozen = .ok (runs, d₁') →
        ∃ d₂', analyze old o d₂ frozen = .ok (runs, d₂') ∧
          d₁'.Similar d₂' ∧ d₁'.DistinctTags ∧ d₂'.DistinctTags := by
  unfold analyze
  rcases hread : (Segment.read old).mapError LayoutError.analysis with e | s
  · exact ⟨rfl, fun runs d₁' h₁ => by cases h₁⟩
  simp only [ok_bind]
  split
  · exact ⟨rfl, fun runs d₁' h₁ => by cases h₁⟩
  have hifds := foldl_fst_eq (ofIfd_similar hfrozen) s.ifds [] h
  rcases h₁ : s.ifds.foldl (ofIfd frozen) ([], d₁) with ⟨extents, b₁⟩
  rcases h₂ : s.ifds.foldl (ofIfd frozen) ([], d₂) with ⟨a₂, b₂⟩
  rw [h₁, h₂] at hifds
  obtain ⟨rfl, hrest⟩ := hifds
  dsimp only
  rcases hruns : checked (Extent.coalesce extents) with e | runs
  · exact ⟨rfl, fun runs d₁' h₁ => by cases h₁⟩
  refine ⟨rfl, fun runs' d₁' hok => ?_⟩
  simp only [ok_bind, pure, Except.pure, Except.ok.injEq, Prod.mk.injEq] at hok
  obtain ⟨rfl, rfl⟩ := hok
  exact ⟨b₂, rfl, hrest⟩

end Gaps

namespace Compact

/-- Drafts of one byte order that are planned alike are written alike. -/
theorem write_congr {d₁ d₂ : Draft} (hbo : d₁.byteOrder = d₂.byteOrder)
    (hplan : d₁.plan.2 = d₂.plan.2 ∧ ∀ p, d₁.plan.2 = .ok p → d₁.plan.1 = d₂.plan.1) (o : ByteOrder) :
    write o d₁ = write o d₂ := by
  obtain ⟨hsame, hfst⟩ := hplan
  unfold write
  rw [hbo]
  rcases h₁ : d₁.plan with ⟨e₁, r₁⟩
  rcases h₂ : d₂.plan with ⟨e₂, r₂⟩
  rw [h₁, h₂] at hsame
  rw [h₁] at hfst
  dsimp only at hsame hfst
  subst hsame
  cases r₁ with
  | error e => rfl
  | ok p =>
    have he : e₁ = e₂ := by simpa [h₂] using hfst p rfl
    subst he
    rfl

end Compact

namespace Reuse

/-- The items written are those that no kept offset places, whichever list of offsets holds the
offsets of the items placed in advance. -/
theorem writtenIds_congr {p : Plan} {l₁ l₂ : List Nat}
    (h : ∀ it ∈ p.items, ∀ o, it.offset = some o → o ∈ l₁ ∧ o ∈ l₂) :
    writtenIds p l₁ = writtenIds p l₂ := by
  unfold writtenIds
  congr 1
  apply List.filter_congr
  rintro ⟨it, j⟩ hit
  have hmem : it ∈ p.items := List.mem_of_getElem? (List.mk_mem_zipIdx_iff_getElem?.1 hit)
  dsimp only
  cases ho : it.offset with
  | none => rfl
  | some o =>
    obtain ⟨h₁, h₂⟩ := h it hmem o ho
    simp [h₁, h₂]

/-- Drafts that are planned alike are written alike into the gaps of one old segment. -/
theorem writeGaps_congr {d₁ d₂ : Draft}
    (hplan : d₁.plan.2 = d₂.plan.2 ∧ ∀ p, d₁.plan.2 = .ok p → d₁.plan.1 = d₂.plan.1)
    (o : ByteOrder) (old : ByteArray) (runs : List Extent) :
    writeGaps o old runs d₁ = writeGaps o old runs d₂ := by
  obtain ⟨hsame, hfst⟩ := hplan
  unfold writeGaps
  rcases h₁ : d₁.plan with ⟨e₁, r₁⟩
  rcases h₂ : d₂.plan with ⟨e₂, r₂⟩
  rw [h₁, h₂] at hsame
  rw [h₁] at hfst
  dsimp only at hsame hfst
  subst hsame
  cases r₁ with
  | error e => rfl
  | ok p =>
    have he : e₁ = e₂ := by simpa [h₂] using hfst p rfl
    subst he
    have hids : writtenIds p d₁.keptOffsets = writtenIds p d₂.keptOffsets :=
      writtenIds_congr fun it hit o ho =>
        ⟨(Draft.plan_items h₁ it hit).2 o ho, (Draft.plan_items h₂ it hit).2 o ho⟩
    simp only [ok_bind, hids]

end Reuse

/-- Both writers see a well-formed draft only up to the order of its fields and its fields with
structural tags: alike drafts are written to the same bytes, or fail alike, compactly and reusing
the layout of any old segment with frozen tags none of which is structural. -/
theorem Draft.Similar.write_eq {d₁ d₂ : Draft} (hw₁ : d₁.WellFormed) (hw₂ : d₂.WellFormed)
    (h : d₁.Similar d₂) (o : ByteOrder) :
    Compact.write o d₁ = Compact.write o d₂ ∧
      ∀ (old : ByteArray) (frozen : List Tag), (∀ t ∈ frozen, t.isStructural = false) →
        Reuse.write o old frozen d₁ = Reuse.write o old frozen d₂ := by
  have hcompact := Compact.write_congr h.byteOrder (h.plan hw₁.coherent hw₂.coherent) o
  refine ⟨hcompact, fun old frozen hfrozen => ?_⟩
  obtain ⟨hmap, hok⟩ := Gaps.analyze_similar hfrozen old o
    ⟨h, hw₁.coherent.distinctTags, hw₂.coherent.distinctTags⟩
  unfold Reuse.write
  rw [h.byteOrder]
  split
  · rfl
  rcases h₁ : Gaps.analyze old o d₁ frozen with e | ⟨runs, d₁'⟩
  · have h₂ : Gaps.analyze old o d₂ frozen = .error e := by
      rw [h₁] at hmap
      rcases h₂ : Gaps.analyze old o d₂ frozen with e' | r
      · rw [h₂] at hmap
        exact congrArg Except.error (Except.error.inj hmap).symm
      · rw [h₂] at hmap
        cases hmap
    rw [h₂]
  obtain ⟨d₂', h₂, hsim, -, -⟩ := hok runs d₁' h₁
  rw [h₂]
  have hclear₁ := Gaps.analyze_clear h₁ hw₁.noKeptOffsets
  have hclear₂ := Gaps.analyze_clear h₂ hw₂.noKeptOffsets
  -- written compactly, the analysed drafts are the drafts themselves
  have hfast : Compact.write o d₁'.clearKeptOffsets = Compact.write o d₂'.clearKeptOffsets := by
    rw [hclear₁, hclear₂, Draft.clearKeptOffsets_eq_self hw₁.noKeptOffsets,
      Draft.clearKeptOffsets_eq_self hw₂.noKeptOffsets]
    exact hcompact
  have hgaps : ∀ runs, Reuse.writeGaps o old runs d₁' = Reuse.writeGaps o old runs d₂' :=
    Reuse.writeGaps_congr (hsim.plan (hw₁.coherent.of_clear hclear₁) (hw₂.coherent.of_clear hclear₂)) o old
  simp only [ok_bind, hfast, hgaps]


namespace Draft

/-- A root directory with two fields and a stale Exif pointer is written as the same directory
with the two fields swapped and no pointer. -/
theorem write_eq_reordered :
    WellFormed ⟨.little, [⟨.root, .little, [Field.short ⟨0x0112⟩ 1 .little,
      Field.long Tag.exifPointer 99 .little, Field.short ⟨0x0100⟩ 2 .little], none⟩]⟩ ∧
    WellFormed ⟨.little, [⟨.root, .little, [Field.short ⟨0x0100⟩ 2 .little,
      Field.short ⟨0x0112⟩ 1 .little], none⟩]⟩ ∧
    Similar ⟨.little, [⟨.root, .little, [Field.short ⟨0x0112⟩ 1 .little,
      Field.long Tag.exifPointer 99 .little, Field.short ⟨0x0100⟩ 2 .little], none⟩]⟩
      ⟨.little, [⟨.root, .little, [Field.short ⟨0x0100⟩ 2 .little,
        Field.short ⟨0x0112⟩ 1 .little], none⟩]⟩ ∧
    (Compact.write .little ⟨.little, [⟨.root, .little, [Field.short ⟨0x0112⟩ 1 .little,
        Field.long Tag.exifPointer 99 .little, Field.short ⟨0x0100⟩ 2 .little], none⟩]⟩ =
      Compact.write .little ⟨.little, [⟨.root, .little, [Field.short ⟨0x0100⟩ 2 .little,
        Field.short ⟨0x0112⟩ 1 .little], none⟩]⟩ ∧
    ∀ (old : ByteArray) (frozen : List Tag), (∀ t ∈ frozen, t.isStructural = false) →
      Reuse.write .little old frozen ⟨.little, [⟨.root, .little, [Field.short ⟨0x0112⟩ 1 .little,
          Field.long Tag.exifPointer 99 .little, Field.short ⟨0x0100⟩ 2 .little], none⟩]⟩ =
        Reuse.write .little old frozen ⟨.little, [⟨.root, .little, [Field.short ⟨0x0100⟩ 2 .little,
          Field.short ⟨0x0112⟩ 1 .little], none⟩]⟩) := by
  have hw₁ : WellFormed ⟨.little, [⟨.root, .little, [Field.short ⟨0x0112⟩ 1 .little,
      Field.long Tag.exifPointer 99 .little, Field.short ⟨0x0100⟩ 2 .little], none⟩]⟩ :=
    ⟨by simp, by simp, by simp only [List.mem_singleton, forall_eq]; decide,
      by simp [Field.short, Field.long, Field.raw], by simp⟩
  have hw₂ : WellFormed ⟨.little, [⟨.root, .little, [Field.short ⟨0x0100⟩ 2 .little,
      Field.short ⟨0x0112⟩ 1 .little], none⟩]⟩ :=
    ⟨by simp, by simp, by simp only [List.mem_singleton, forall_eq]; decide,
      by simp [Field.short, Field.raw], by simp⟩
  have hs : Similar ⟨.little, [⟨.root, .little, [Field.short ⟨0x0112⟩ 1 .little,
      Field.long Tag.exifPointer 99 .little, Field.short ⟨0x0100⟩ 2 .little], none⟩]⟩
      ⟨.little, [⟨.root, .little, [Field.short ⟨0x0100⟩ 2 .little,
        Field.short ⟨0x0112⟩ 1 .little], none⟩]⟩ := by
    refine ⟨rfl, .cons ⟨rfl, rfl, ?_⟩ .nil⟩
    have h₁ : (Field.short ⟨0x0112⟩ 1 .little).tag.isStructural = false := by decide
    have h₂ : (Field.short ⟨0x0100⟩ 2 .little).tag.isStructural = false := by decide
    have h₃ : (Field.long Tag.exifPointer 99 .little).tag.isStructural = true := by decide
    simp only [List.filter_cons, h₁, h₂, h₃, List.filter_nil, Bool.not_false, Bool.not_true,
      if_true, if_false, Bool.false_eq_true]
    exact List.Perm.swap _ _ _
  exact ⟨hw₁, hw₂, hs, hs.write_eq hw₁ hw₂ .little⟩

end Draft

end TiffLayout
