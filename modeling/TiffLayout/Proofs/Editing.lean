import TiffLayout.Session
import TiffLayout.Proofs.Traversal
import TiffLayout.Proofs.Synthesis
import TiffLayout.Proofs.Patch
/-! Editing keeps a draft well formed.

Every step but adding a directory changes the draft in one of the ways of `Draft.Edit`, each of
which keeps it well formed and its parent kinds present; main statement `Session.edit_invariant`. -/
namespace TiffLayout

namespace DirectoryKind

/-- The kind's lineage holds the kind and the parent of each of its kinds. -/
theorem self_mem_lineage : ∀ k : DirectoryKind, k ∈ k.lineage := by decide

theorem parent_mem_lineage : ∀ {k c p : DirectoryKind}, c ∈ k.lineage → c.parent? = some p →
    p ∈ k.lineage := by
  decide

end DirectoryKind

theorem map_modify {α β : Type} {g : α → α} {h : α → β} (hg : ∀ a, h (g a) = h a) (l : List α)
    (i : Nat) : (l.modify i g).map h = l.map h := by
  by_cases hi : i < l.length
  · obtain ⟨l₁, a, l₂, rfl, -, hm⟩ := List.exists_of_modify g hi
    simp [hm, hg]
  · rw [List.modify_eq_self (by omega)]

theorem mem_modify {α : Type} {g : α → α} {l : List α} {i : Nat} {a : α} (h : a ∈ l.modify i g) :
    a ∈ l ∨ ∃ b ∈ l, a = g b := by
  by_cases hi : i < l.length
  · obtain ⟨l₁, b, l₂, rfl, -, hm⟩ := List.exists_of_modify g hi
    rw [hm] at h
    simp only [List.mem_append, List.mem_cons] at h
    rcases h with h | rfl | h
    · exact .inl (List.mem_append_left _ h)
    · exact .inr ⟨b, by simp, rfl⟩
    · exact .inl (by simp [h])
  · rw [List.modify_eq_self (by omega)] at h
    exact .inl h

namespace Directory

/-- What a well-formed draft in byte order `o` asks of each of its directories. -/
structure Sound (o : ByteOrder) (x : Directory) : Prop where
  byteOrder : x.byteOrder = o
  distinctTags : (x.fields.map (·.tag)).Nodup
  noKeptOffsets : ∀ f ∈ x.fields, f.keptOffset = none
  thumbnail : ∀ t, x.thumbnail = some t → 0 < t.size

theorem kind_of_addField {x x' : Directory} {f : Field} (h : x.addField f = .ok x') :
    x'.kind = x.kind := by
  rw [(addField_ok_iff.1 h).2]

theorem removeField_fst (x : Directory) (t : Tag) :
    (x.removeField t).1 = { x with fields := x.fields.eraseP (·.tag = t) } := by
  rw [← takeField_fst]
  rfl

/-- A field of a directory whose first field with a tag changed is an old field or a changed one. -/
theorem mem_updateField_go_or {t : Tag} {g : Field → Field} {f' : Field} :
    ∀ {fs : List Field}, f' ∈ updateField.go t g fs → f' ∈ fs ∨ ∃ f ∈ fs, f' = g f
  | [], h => by simp [updateField.go] at h
  | f :: fs, h => by
    unfold updateField.go at h
    split at h
    · rcases List.mem_cons.1 h with rfl | h
      · exact .inr ⟨f, List.mem_cons_self, rfl⟩
      · exact .inl (List.mem_cons_of_mem _ h)
    · rcases List.mem_cons.1 h with rfl | h
      · exact .inl List.mem_cons_self
      · rcases mem_updateField_go_or h with h | ⟨g', hg', rfl⟩
        · exact .inl (List.mem_cons_of_mem _ h)
        · exact .inr ⟨g', List.mem_cons_of_mem _ hg', rfl⟩

namespace Sound

variable {o : ByteOrder} {x x' : Directory}

theorem empty (k : DirectoryKind) (o : ByteOrder) : (Directory.empty k o).Sound o :=
  ⟨rfl, List.nodup_nil, by simp [Directory.empty], by simp [Directory.empty]⟩

theorem addField (hx : x.Sound o) {f : Field} (hf : f.keptOffset = none)
    (h : x.addField f = .ok x') : x'.Sound o := by
  have hnodup := nodup_addField h hx.distinctTags
  obtain ⟨-, rfl⟩ := addField_ok_iff.1 h
  refine ⟨hx.byteOrder, hnodup, fun g hg => ?_, hx.thumbnail⟩
  rcases List.mem_append.1 hg with hg | hg
  · exact hx.noKeptOffsets g hg
  · rw [List.mem_singleton.1 hg]
    exact hf

theorem removeField (hx : x.Sound o) (t : Tag) : (x.removeField t).1.Sound o := by
  rw [removeField_fst]
  have hsub : (x.fields.eraseP (·.tag = t)).Sublist x.fields := List.eraseP_sublist
  exact ⟨hx.byteOrder, hx.distinctTags.sublist (hsub.map _),
    fun f hf => hx.noKeptOffsets f (hsub.subset hf), hx.thumbnail⟩

/-- Changing the payload of a field keeps its tag, and a field that keeps no offset keeps none. -/
theorem updateField_setBytes (hx : x.Sound o) (t : Tag) (n : Nat) (b : ByteArray) :
    (x.updateField t (·.setBytes n b)).Sound o := by
  refine ⟨hx.byteOrder, ?_, fun f hf => ?_, hx.thumbnail⟩
  · rw [tags_updateField (g := fun f => f.setBytes n b) (fun f => rfl) hx.distinctTags]
    exact hx.distinctTags
  · rcases mem_updateField_go_or hf with hf | ⟨g, hg, rfl⟩
    · exact hx.noKeptOffsets f hf
    · simp [Field.setBytes, hx.noKeptOffsets g hg]

theorem setThumbnail (hx : x.Sound o) (t : Option ByteArray) : (x.setThumbnail t).Sound o := by
  refine ⟨hx.byteOrder, hx.distinctTags, hx.noKeptOffsets, fun th hth => ?_⟩
  simp only [Directory.setThumbnail, Option.filter_eq_some_iff] at hth
  simpa using hth.2

theorem sortFields (hx : x.Sound o) : x.sortFields.Sound o := by
  have hperm := List.mergeSort_perm x.fields fun a b => decide (a.tag.code.toNat ≤ b.tag.code.toNat)
  exact ⟨hx.byteOrder, (hperm.map _).nodup_iff.2 hx.distinctTags,
    fun f hf => hx.noKeptOffsets f (hperm.subset hf), hx.thumbnail⟩

end Sound

/-! ### Synthesis in place, wherever it stops -/

section Synthesis

variable {o o' : ByteOrder}

theorem addPointerField_sound {x x' : Directory} {k : DirectoryKind}
    (h : addPointerField o' x k = .ok x') : x'.kind = x.kind ∧ (x.Sound o → x'.Sound o) := by
  unfold addPointerField at h
  split at h
  · split at h
    · exact ⟨kind_of_addField h, fun hx => hx.addField rfl h⟩
    · cases h
      exact ⟨rfl, id⟩
  · cases h
    exact ⟨rfl, id⟩

theorem addPointerFieldsIn_sound (o' : ByteOrder) : ∀ (ks : List DirectoryKind) (x : Directory),
    (addPointerFieldsIn o' ks x).1.kind = x.kind ∧
      (x.Sound o → (addPointerFieldsIn o' ks x).1.Sound o)
  | [], _ => ⟨rfl, id⟩
  | k :: ks, x => by
    unfold addPointerFieldsIn
    split
    · rename_i x' hadd
      obtain ⟨hk, hs⟩ := addPointerField_sound (o := o) hadd
      obtain ⟨hk', hs'⟩ := addPointerFieldsIn_sound o' ks x'
      exact ⟨hk'.trans hk, hs' ∘ hs⟩
    · exact ⟨rfl, id⟩

theorem foldl_removeField_sound : ∀ (ts : List Tag) (x : Directory),
    (ts.foldl (fun x t => (x.removeField t).1) x).kind = x.kind ∧
      (x.Sound o → (ts.foldl (fun x t => (x.removeField t).1) x).Sound o)
  | [], _ => ⟨rfl, id⟩
  | t :: ts, x => by
    obtain ⟨hk, hs⟩ := foldl_removeField_sound ts (x.removeField t).1
    exact ⟨hk.trans (by rw [removeField_fst]), fun hx => hs (hx.removeField t)⟩

/-- Synthesis in place keeps a directory's kind and keeps it sound, also where it stops at a
failure: each of its steps removes a field or adds a placeholder that keeps no offset. -/
theorem synthesizeIn_sound (x : Directory) (present : List DirectoryKind) (o' : ByteOrder) :
    (x.synthesizeIn present o').1.kind = x.kind ∧
      (x.Sound o → (x.synthesizeIn present o').1.Sound o) := by
  obtain ⟨hk₀, hs₀⟩ := foldl_removeField_sound (o := o) structuralTags x
  unfold synthesizeIn
  generalize structuralTags.foldl (fun x t => (x.removeField t).1) x = x₀ at hk₀ hs₀
  obtain ⟨hk₁, hs₁⟩ := addPointerFieldsIn_sound (o := o) o' present x₀
  generalize addPointerFieldsIn o' present x₀ = r at hk₁ hs₁
  rcases r with ⟨x₁, e | ⟨⟩⟩
  · exact ⟨hk₁.trans hk₀, hs₁ ∘ hs₀⟩
  have h₁ : x₁.kind = x.kind ∧ (x.Sound o → x₁.Sound o) := ⟨hk₁.trans hk₀, hs₁ ∘ hs₀⟩
  dsimp only
  split
  · exact h₁
  split
  · exact h₁
  split
  · exact h₁
  rename_i x₂ h₂
  have h₂ : x₂.kind = x.kind ∧ (x.Sound o → x₂.Sound o) :=
    ⟨(kind_of_addField h₂).trans h₁.1, fun hx => (h₁.2 hx).addField rfl h₂⟩
  split
  · exact h₂
  rename_i x₃ h₃
  exact ⟨(kind_of_addField h₃).trans h₂.1, fun hx => (h₂.2 hx).addField rfl h₃⟩

end Synthesis

end Directory

namespace Session

/-- Adding SHORT fields one by one keeps the directory's kind and keeps it sound. -/
theorem addShorts_sound {o o' : ByteOrder} : ∀ (start n : Nat) (x : Directory),
    (addShorts o' start n x).1.kind = x.kind ∧ (x.Sound o → (addShorts o' start n x).1.Sound o)
  | _, 0, _ => ⟨rfl, id⟩
  | start, n + 1, x => by
    unfold addShorts
    split
    · split
      · rename_i x' hadd
        obtain ⟨hk, hs⟩ := addShorts_sound (o := o) (start + 1) n x'
        exact ⟨hk.trans (Directory.kind_of_addField hadd), fun hx => hs (hx.addField rfl hadd)⟩
      · exact ⟨rfl, id⟩
    · exact ⟨rfl, id⟩

end Session

namespace Draft

/-- A directory of the kind is present. -/
def Has (d : Draft) (k : DirectoryKind) : Prop := ∃ x ∈ d.dirs, x.kind = k

theorem has_iff {d : Draft} {k : DirectoryKind} : d.Has k ↔ k ∈ d.dirs.map (·.kind) := by
  simp [Has]

theorem WellFormed.sound {d : Draft} (hd : d.WellFormed) : ∀ x ∈ d.dirs, x.Sound d.byteOrder :=
  fun x hx => ⟨hd.byteOrder x hx, hd.distinctTags x hx, hd.noKeptOffsets x hx, hd.thumbnails x hx⟩

theorem WellFormed.of_sound {d : Draft} (hs : (d.dirs.map (·.kind.rank)).Pairwise (· < ·))
    (hx : ∀ x ∈ d.dirs, x.Sound d.byteOrder) : d.WellFormed :=
  ⟨hs, fun x h => (hx x h).byteOrder, fun x h => (hx x h).distinctTags,
    fun x h => (hx x h).noKeptOffsets, fun x h => (hx x h).thumbnail⟩

/-- Directories of the same kinds in the same order, each sound, keep a draft well formed. -/
theorem WellFormed.of_kinds {d d' : Draft} (hd : d.WellFormed) (hbo : d'.byteOrder = d.byteOrder)
    (hk : d'.dirs.map (·.kind) = d.dirs.map (·.kind)) (hs : ∀ x ∈ d'.dirs, x.Sound d.byteOrder) :
    d'.WellFormed := by
  refine .of_sound ?_ (hbo ▸ hs)
  have hranks : d'.dirs.map (·.kind.rank) = d.dirs.map (·.kind.rank) := by
    simpa [List.map_map, Function.comp_def] using congrArg (List.map DirectoryKind.rank) hk
  rw [hranks]
  exact hd.sorted

/-- Directories of the same kinds keep every parent kind present. -/
theorem ParentClosed.of_kinds {d d' : Draft} (hd : d.ParentClosed)
    (hk : d'.dirs.map (·.kind) = d.dirs.map (·.kind)) : d'.ParentClosed := by
  intro x hx p hp
  obtain ⟨y, hy, hyx⟩ := has_iff.2 (hk ▸ List.mem_map_of_mem hx : x.kind ∈ d.dirs.map (·.kind))
  exact has_iff.2 (hk ▸ has_iff.1 (hd y hy p (hyx ▸ hp)))

/-! ### Adding directories -/

theorem addDirectory_ok_iff {d d' : Draft} {x : Directory} :
    d.addDirectory x = .ok d' ↔
      (∀ y ∈ d.dirs, y.kind ≠ x.kind) ∧ x.byteOrder = d.byteOrder ∧
        d' = { d with dirs := insertSorted x d.dirs } := by
  unfold addDirectory
  by_cases hany : d.dirs.any (·.kind = x.kind)
  · obtain ⟨y, hy, hyx⟩ := List.any_eq_true.1 hany
    simp only [hany, if_true, reduceCtorEq, false_iff, not_and]
    exact fun hnew => absurd (of_decide_eq_true hyx) (hnew y hy)
  · have hnew : ∀ y ∈ d.dirs, y.kind ≠ x.kind := fun y hy hyx =>
      hany (List.any_eq_true.2 ⟨y, hy, decide_eq_true hyx⟩)
    by_cases hbo : x.byteOrder = d.byteOrder
    · simp only [hany, Bool.false_eq_true, if_false, hbo, ne_eq, not_true_eq_false,
        Except.ok.injEq]
      exact ⟨fun h => ⟨hnew, trivial, h.symm⟩, fun h => h.2.2.symm⟩
    · simp [hany, hbo]

/-- Inserting a sound directory of a new kind keeps a draft well formed. -/
theorem WellFormed.insertSorted {d : Draft} (hd : d.WellFormed) {x : Directory}
    (hnew : ∀ y ∈ d.dirs, y.kind ≠ x.kind) (hx : x.Sound d.byteOrder) :
    WellFormed { d with dirs := insertSorted x d.dirs } := by
  refine .of_sound (insertSorted_sorted hd.sorted hnew) fun y hy => ?_
  rcases mem_insertSorted.1 hy with rfl | hy
  · exact hx
  · exact hd.sound y hy

theorem WellFormed.addDirectory {d d' : Draft} (hd : d.WellFormed) {k : DirectoryKind}
    {o : ByteOrder} (h : d.addDirectory (Directory.empty k o) = .ok d') : d'.WellFormed := by
  obtain ⟨hnew, hbo, rfl⟩ := addDirectory_ok_iff.1 h
  exact hd.insertSorted hnew (hbo ▸ Directory.Sound.empty k o)

theorem mem_ensure {d : Draft} {k : DirectoryKind} {x : Directory} (hx : x ∈ (d.ensure k).dirs) :
    x ∈ d.dirs ∨ x.kind = k := by
  unfold ensure at hx
  split at hx
  · exact .inl hx
  · rcases mem_insertSorted.1 hx with rfl | hx
    · exact .inr rfl
    · exact .inl hx

theorem Has.ensure {d : Draft} {c : DirectoryKind} (h : d.Has c) (k : DirectoryKind) :
    (d.ensure k).Has c := by
  obtain ⟨x, hx, rfl⟩ := h
  unfold Draft.ensure
  split
  · exact ⟨x, hx, rfl⟩
  · exact ⟨x, mem_insertSorted.2 (.inr hx), rfl⟩

theorem has_ensure (d : Draft) (k : DirectoryKind) : (d.ensure k).Has k := by
  unfold ensure
  split
  · rename_i hany
    obtain ⟨x, hx, hxk⟩ := List.any_eq_true.1 hany
    exact ⟨x, hx, of_decide_eq_true hxk⟩
  · exact ⟨_, mem_insertSorted.2 (.inl rfl), rfl⟩

theorem WellFormed.ensure {d : Draft} (hd : d.WellFormed) (k : DirectoryKind) :
    (d.ensure k).WellFormed := by
  unfold Draft.ensure
  split
  · exact hd
  · rename_i hany
    refine hd.insertSorted (fun y hy hyk => hany (List.any_eq_true.2 ⟨y, hy, ?_⟩))
      (Directory.Sound.empty k d.byteOrder)
    exact decide_eq_true hyk

/-- Creating the kinds of a list, in turn, leaves them all present and adds no other kind. -/
theorem foldl_ensure (L : List DirectoryKind) :
    ∀ d : Draft, (∀ c, c ∈ L ∨ d.Has c → (L.foldl ensure d).Has c) ∧
      ∀ x ∈ (L.foldl ensure d).dirs, x ∈ d.dirs ∨ x.kind ∈ L := by
  induction L with
  | nil => intro d; simp
  | cons k L ih =>
    intro d
    obtain ⟨hhas, hmem⟩ := ih (d.ensure k)
    refine ⟨fun c hc => hhas c ?_, fun x hx => ?_⟩
    · rcases hc with hc | hc
      · rcases List.mem_cons.1 hc with rfl | hc
        · exact .inr (has_ensure d c)
        · exact .inl hc
      · exact .inr (hc.ensure k)
    · rcases hmem x hx with hx | hx
      · rcases mem_ensure hx with hx | rfl
        · exact .inl hx
        · exact .inr List.mem_cons_self
      · exact .inr (List.mem_cons_of_mem _ hx)

theorem WellFormed.getOrCreate {d : Draft} (hd : d.WellFormed) (k : DirectoryKind) :
    (d.getOrCreate k).WellFormed := by
  unfold Draft.getOrCreate
  apply List.foldlRecOn (motive := WellFormed)
  · exact hd
  · intro d' hd' c _
    exact hd'.ensure c

/-- After creating a kind, every ancestor of it is present, the kind itself included. -/
theorem has_getOrCreate (d : Draft) {k c : DirectoryKind}
    (h : Relation.ReflTransGen (fun a b => a.parent? = some b) k c) : (d.getOrCreate k).Has c := by
  have hmem : c ∈ k.lineage := by
    induction h with
    | refl => exact DirectoryKind.self_mem_lineage k
    | tail _ hparent ih => exact DirectoryKind.parent_mem_lineage ih hparent
  exact (foldl_ensure k.lineage d).1 c (.inl hmem)

/-- Creating a kind with its ancestors keeps every parent kind present. -/
theorem ParentClosed.getOrCreate {d : Draft} (hd : d.ParentClosed) (k : DirectoryKind) :
    (d.getOrCreate k).ParentClosed := by
  obtain ⟨hhas, hmem⟩ := foldl_ensure k.lineage d
  intro x hx p hp
  rcases hmem x hx with hx | hx
  · exact hhas p (.inr (hd x hx p hp))
  · exact hhas p (.inl (DirectoryKind.parent_mem_lineage hx hp))

/-! ### Changing directories -/

theorem mem_update {d : Draft} {k : DirectoryKind} {g : Directory → Directory} {y : Directory}
    (h : y ∈ (d.update k g).dirs) : ∃ x ∈ d.dirs, y = if x.kind = k then g x else x := by
  obtain ⟨x, hx, rfl⟩ := List.mem_map.1 h
  exact ⟨x, hx, rfl⟩

theorem kinds_update {d : Draft} {k : DirectoryKind} {g : Directory → Directory}
    (hg : ∀ x ∈ d.dirs, x.kind = k → (g x).kind = x.kind) :
    (d.update k g).dirs.map (·.kind) = d.dirs.map (·.kind) := by
  simp only [update, List.map_map]
  refine List.map_congr_left fun x hx => ?_
  by_cases hk : x.kind = k
  · simp [hk, hg x hx hk]
  · simp [hk]

/-- Replacing the directory of a kind by a sound directory of that kind keeps a draft well
formed. -/
theorem WellFormed.update {d : Draft} (hd : d.WellFormed) {k : DirectoryKind} {x' : Directory}
    (hk : x'.kind = k) (hx' : x'.Sound d.byteOrder) : (d.update k fun _ => x').WellFormed := by
  refine hd.of_kinds rfl (kinds_update fun x _ hx => hk.trans hx.symm) fun y hy => ?_
  obtain ⟨x, hx, rfl⟩ := mem_update hy
  split
  · exact hx'
  · exact hd.sound x hx

theorem removeFieldAll_fst (d : Draft) (t : Tag) :
    (d.removeFieldAll t).1 = { d with dirs := d.dirs.map fun x => (x.removeField t).1 } := by
  simp [removeFieldAll]

theorem kinds_removeFieldAll (d : Draft) (t : Tag) :
    (d.removeFieldAll t).1.dirs.map (·.kind) = d.dirs.map (·.kind) := by
  simp [removeFieldAll_fst, Directory.removeField_fst]

theorem WellFormed.removeFieldAll {d : Draft} (hd : d.WellFormed) (t : Tag) :
    (d.removeFieldAll t).1.WellFormed := by
  refine hd.of_kinds rfl (kinds_removeFieldAll d t) fun y hy => ?_
  rw [removeFieldAll_fst] at hy
  obtain ⟨x, hx, rfl⟩ := List.mem_map.1 hy
  exact (hd.sound x hx).removeField t

/-! ### Planning and writing pointer fields -/

/-- Synthesizing directories in place, up to the first failure, keeps their kinds and keeps them
sound. -/
theorem synthesizeDirsIn_sound (present : List DirectoryKind) (o' o : ByteOrder) :
    ∀ xs : List Directory, (synthesizeDirsIn present o' xs).1.map (·.kind) = xs.map (·.kind) ∧
      ((∀ x ∈ xs, x.Sound o) → ∀ y ∈ (synthesizeDirsIn present o' xs).1, y.Sound o)
  | [] => ⟨rfl, fun _ y hy => by cases hy⟩
  | x :: xs => by
    obtain ⟨hk, hs⟩ := Directory.synthesizeIn_sound (o := o) x present o'
    unfold synthesizeDirsIn
    generalize x.synthesizeIn present o' = r at hk hs
    rcases r with ⟨x', e | ⟨⟩⟩ <;> dsimp only at hk hs
    · refine ⟨by simp [hk], fun hxs y hy => ?_⟩
      rcases List.mem_cons.1 hy with rfl | hy
      · exact hs (hxs x List.mem_cons_self)
      · exact hxs y (List.mem_cons_of_mem _ hy)
    · obtain ⟨hks, hss⟩ := synthesizeDirsIn_sound present o' o xs
      refine ⟨by simp [hks, hk, Directory.sortFields], fun hxs y hy => ?_⟩
      rcases List.mem_cons.1 hy with rfl | hy
      · exact (hs (hxs x List.mem_cons_self)).sortFields
      · exact hss (fun z hz => hxs z (List.mem_cons_of_mem _ hz)) y hy

/-- Synthesis in place keeps a draft well formed and its kinds, wherever it stops. -/
theorem synthesizeIn_wellFormed {d : Draft} (hd : d.WellFormed) :
    d.synthesizeIn.1.WellFormed ∧ d.synthesizeIn.1.dirs.map (·.kind) = d.dirs.map (·.kind) := by
  obtain ⟨hk, hs⟩ := synthesizeDirsIn_sound (d.dirs.map (·.kind)) d.byteOrder d.byteOrder d.dirs
  exact ⟨hd.of_kinds rfl hk (hs hd.sound), hk⟩

/-- Writing pointer fields, up to the first failure, keeps a draft well formed and its kinds. The
induction follows the pointers. -/
theorem patchFrom_wellFormed (p : Plan) :
    ∀ (qs : List Pointer) {d : Draft}, d.WellFormed →
      (p.patchFrom qs d).1.WellFormed ∧ (p.patchFrom qs d).1.dirs.map (·.kind) = d.dirs.map (·.kind)
  | [], d, hd => ⟨hd, rfl⟩
  | q :: qs, d, hd => by
    unfold Plan.patchFrom
    split
    · exact ⟨hd, rfl⟩
    split
    · exact ⟨hd, rfl⟩
    rename_i bytes _ _ _ _
    have hkinds := map_modify (h := (·.kind))
      (g := (·.updateField q.tag (·.setBytes 1 ⟨bytes.toArray⟩))) (fun _ => rfl) d.dirs q.dir
    have hd₁ : WellFormed ⟨d.byteOrder, d.dirs.modify q.dir
        (·.updateField q.tag (·.setBytes 1 ⟨bytes.toArray⟩))⟩ := by
      refine hd.of_kinds rfl hkinds fun y hy => ?_
      rcases mem_modify hy with hy | ⟨x, hx, rfl⟩
      · exact hd.sound y hy
      · exact (hd.sound x hx).updateField_setBytes _ _ _
    obtain ⟨hwf, hk⟩ := patchFrom_wellFormed p qs hd₁
    exact ⟨hwf, hk.trans hkinds⟩

/-! ### The draft of a read segment -/

theorem ofSegment_wellFormed {data : ByteArray} {seg : Segment} {d : Draft}
    (hread : Segment.read data = .ok seg) (hd : ofSegment seg = .ok d) : d.WellFormed := by
  obtain ⟨d', hd', -, -, hwf, -⟩ := ofSegment_read hread
  rw [hd] at hd'
  cases hd'
  exact hwf

/-- The draft of a read segment has the parent of each of its kinds: the reader reads a directory
only through a link from its parent. -/
theorem ofSegment_parentClosed {data : ByteArray} {seg : Segment} {d : Draft}
    (hread : Segment.read data = .ok seg) (hd : ofSegment seg = .ok d) : d.ParentClosed := by
  obtain ⟨d', hd', -, hperm, -, -⟩ := ofSegment_read hread
  rw [hd] at hd'
  cases hd'
  have hs := Segment.read_structured hread
  obtain ⟨_, root, _, _, -, hroot, -, hifds, -, -⟩ := hs.order
  intro x hx p hp
  obtain ⟨z, hz, rfl⟩ := List.mem_map.1 (hperm.subset hx)
  -- the root has no parent, so a directory with one comes after the first
  have htail : z ∈ seg.ifds.tail := by
    rw [hifds, List.cons_append] at hz ⊢
    rcases List.mem_cons.1 hz with rfl | hz
    · simp [Ifd.toDirectory, hroot, DirectoryKind.parent?] at hp
    · exact hz
  obtain ⟨y, hsub, hparent, -⟩ := hs.parent z htail
  have hy : y ∈ seg.ifds := hsub.subset List.mem_cons_self
  refine ⟨y.toDirectory seg.byteOrder, hperm.symm.subset (List.mem_map_of_mem hy), ?_⟩
  have hp' : z.kind.parent? = some p := hp
  rw [hp'] at hparent
  exact (Option.some.inj hparent).symm

/-! ### What a step does to the draft -/

/-- What a step other than adding a directory can do to a draft. -/
inductive Edit : Draft → Draft → Prop
  | keep (d : Draft) : Edit d d
  | reset (d : Draft) (o : ByteOrder) : Edit d (Draft.empty o)
  | load {d d' : Draft} {data : ByteArray} {seg : Segment} (hread : Segment.read data = .ok seg)
      (hd : ofSegment seg = .ok d') : Edit d d'
  | getOrCreate (d : Draft) (ks : List DirectoryKind) : Edit d (ks.foldl Draft.getOrCreate d)
  | directory {d : Draft} {k : DirectoryKind} {x x' : Directory} (hx : d.find? k = some x)
      (hk : x'.kind = x.kind) (hs : x.Sound d.byteOrder → x'.Sound d.byteOrder) :
      Edit d (d.update k fun _ => x')
  | removeFieldAll (d : Draft) (t : Tag) : Edit d (d.removeFieldAll t).1
  | synthesize (d : Draft) : Edit d d.synthesizeIn.1
  | patch (d : Draft) (p : Plan) : Edit d (p.patch d).1

namespace Edit

variable {d d' : Draft}

theorem find?_sound (hd : d.WellFormed) {k : DirectoryKind} {x : Directory} (hx : d.find? k = some x) :
    x.kind = k ∧ x.Sound d.byteOrder :=
  ⟨by simpa using List.find?_some hx, hd.sound x (List.mem_of_find?_eq_some hx)⟩

theorem wellFormed (h : Edit d d') (hd : d.WellFormed) : d'.WellFormed := by
  cases h with
  | keep => exact hd
  | reset o => exact wellFormed_empty o
  | load hread hd' => exact ofSegment_wellFormed hread hd'
  | getOrCreate ks =>
    apply List.foldlRecOn (motive := WellFormed)
    · exact hd
    · intro d' hd' k _
      exact hd'.getOrCreate k
  | directory hx hk hs =>
    obtain ⟨hxk, hsound⟩ := find?_sound hd hx
    exact hd.update (hk.trans hxk) (hs hsound)
  | removeFieldAll t => exact hd.removeFieldAll t
  | synthesize => exact (synthesizeIn_wellFormed hd).1
  | patch p => exact (patchFrom_wellFormed p p.pointers hd).1

theorem parentClosed (h : Edit d d') (hd : d.WellFormed) (hpc : d.ParentClosed) : d'.ParentClosed := by
  cases h with
  | keep => exact hpc
  | reset o => exact parentClosed_empty o
  | load hread hd' => exact ofSegment_parentClosed hread hd'
  | getOrCreate ks =>
    apply List.foldlRecOn (motive := ParentClosed)
    · exact hpc
    · intro d' hd' k _
      exact hd'.getOrCreate k
  | directory hx hk hs =>
    have hxk := (find?_sound hd hx).1
    exact hpc.of_kinds (kinds_update fun y _ hy => hk.trans (hxk.trans hy.symm))
  | removeFieldAll t => exact hpc.of_kinds (kinds_removeFieldAll d t)
  | synthesize => exact hpc.of_kinds (synthesizeIn_wellFormed hd).2
  | patch p => exact hpc.of_kinds (patchFrom_wellFormed p p.pointers hd).2

end Edit

end Draft

/-- Whether a step adds a directory. -/
def Step.addsDirectory : Step → Bool
  | .addDirectory .. => true
  | _ => false

namespace Session

/-- The session after each of the steps in turn, whatever they reply. -/
def run (s : Session) (steps : List Step) : Session := steps.foldl (fun s st => (s.step st).1) s

@[simp] theorem run_nil (s : Session) : s.run [] = s := rfl

@[simp] theorem run_cons (s : Session) (st : Step) (steps : List Step) :
    s.run (st :: steps) = (s.step st).1.run steps := rfl

theorem editDirectory_edit {s : Session} {k : DirectoryKind}
    {g : Directory → Except SessionError (Directory × Reply)}
    (hg : ∀ x x' r, g x = .ok (x', r) → x'.kind = x.kind ∧
      (x.Sound s.draft.byteOrder → x'.Sound s.draft.byteOrder)) :
    Draft.Edit s.draft (s.editDirectory k g).1.draft := by
  unfold editDirectory
  split
  · exact .keep _
  · rename_i x hx
    split
    · rename_i x' r hgx
      obtain ⟨hk, hs⟩ := hg x x' r hgx
      exact .directory hx hk hs
    · exact .keep _

theorem withPlan_draft {s : Session} {g : Plan → Session × Except SessionError Reply}
    (hg : ∀ p, (g p).1.draft = s.draft) : (s.withPlan g).1.draft = s.draft := by
  unfold withPlan
  split
  · exact hg _
  · rfl

/-- Every step but adding a directory edits the draft in one of the ways of `Draft.Edit`. -/
theorem step_edit (s : Session) {st : Step} (hst : st.addsDirectory = false) :
    Draft.Edit s.draft (s.step st).1.draft := by
  cases st with
  | reset o => exact .reset _ o
  | load data =>
    simp only [step]
    split
    · exact .keep _
    · rename_i seg hread
      split
      · rename_i d hd
        exact .load hread hd
      · exact .keep _
  | addDirectory k o => simp [Step.addsDirectory] at hst
  | getOrCreate k => exact .getOrCreate _ [k]
  | getOrCreateGps => exact .getOrCreate _ [.exif, .gps]
  | addField k f =>
    refine editDirectory_edit fun x x' r h => ?_
    split at h
    · rename_i x₁ hadd
      obtain ⟨rfl, -⟩ := Prod.mk.inj (Except.ok.inj h)
      refine ⟨Directory.kind_of_addField hadd, fun hx => hx.addField ?_ hadd⟩
      cases f <;> rfl
    · cases h
  | addShorts k start n =>
    simp only [step]
    split
    · exact .keep _
    · rename_i x hx
      obtain ⟨hk, hs⟩ := @addShorts_sound s.draft.byteOrder s.draft.byteOrder start n x
      rcases hadd : addShorts s.draft.byteOrder start n x with ⟨x', failure⟩
      rw [hadd] at hk hs
      cases failure <;> exact .directory hx hk hs
  | removeField k t =>
    refine editDirectory_edit fun x x' r h => ?_
    obtain ⟨rfl, -⟩ := Prod.mk.inj (Except.ok.inj h)
    exact ⟨rfl, fun hx => hx.removeField t⟩
  | removeFieldAll t => exact .removeFieldAll _ t
  | findField t => exact .keep _
  | setBytes k t count bytes =>
    refine editDirectory_edit fun x x' r h => ?_
    split at h
    · obtain ⟨rfl, -⟩ := Prod.mk.inj (Except.ok.inj h)
      exact ⟨rfl, fun hx => hx.updateField_setBytes t count bytes⟩
    · cases h
  | setThumbnail k bytes =>
    refine editDirectory_edit fun x x' r h => ?_
    obtain ⟨rfl, -⟩ := Prod.mk.inj (Except.ok.inj h)
    exact ⟨rfl, fun hx => hx.setThumbnail bytes⟩
  | write o mode =>
    simp only [step]
    split <;> exact .keep _
  | summarize =>
    have hd : (s.step .summarize).1.draft = s.draft.plan.1 := by
      simp only [step]
      split <;> rename_i hplan <;> rw [hplan]
    rw [hd]
    rcases Draft.plan_fst s.draft with h | h <;> rw [h]
    · exact .keep _
    · exact .synthesize _
  | place id offset =>
    have h : (s.step (.place id offset)).1.draft = s.draft := withPlan_draft fun p => by
      split
      · split <;> rfl
      · rfl
    exact h ▸ .keep _
  | patch =>
    simp only [step, withPlan]
    split
    · exact .patch _ _
    · exact .keep _
  | rootOffset =>
    have h : (s.step .rootOffset).1.draft = s.draft := withPlan_draft fun p => by
      split <;> rfl
    exact h ▸ .keep _
  | writeItem id length =>
    have h : (s.step (.writeItem id length)).1.draft = s.draft := withPlan_draft fun p => by
      split <;> rfl
    exact h ▸ .keep _

/-- Adding a directory keeps the draft, or adds the directory as `Draft.addDirectory` does. -/
theorem step_addDirectory_draft (s : Session) (k : DirectoryKind) (o : Option ByteOrder) :
    (s.step (.addDirectory k o)).1.draft = s.draft ∨
      s.draft.addDirectory (Directory.empty k (o.getD s.draft.byteOrder)) =
        .ok (s.step (.addDirectory k o)).1.draft := by
  cases hadd : s.draft.addDirectory (Directory.empty k (o.getD s.draft.byteOrder)) with
  | error e => exact .inl (by simp [step, hadd])
  | ok d => exact .inr (by simp [step, hadd])

/-- A failing change of a directory leaves the session as it was. -/
theorem editDirectory_error {s : Session} {k : DirectoryKind}
    {g : Directory → Except SessionError (Directory × Reply)} {e : SessionError}
    (h : (s.editDirectory k g).2 = .error e) : (s.editDirectory k g).1 = s := by
  cases hx : s.draft.find? k with
  | none => simp [editDirectory, hx]
  | some x =>
    cases hg : g x with
    | error e' => simp [editDirectory, hx, hg]
    | ok r => simp [editDirectory, hx, hg] at h

theorem step_addDirectory_error {s : Session} {k : DirectoryKind} {o : Option ByteOrder}
    {e : SessionError} (h : (s.step (.addDirectory k o)).2 = .error e) :
    (s.step (.addDirectory k o)).1 = s := by
  cases hadd : s.draft.addDirectory (Directory.empty k (o.getD s.draft.byteOrder)) with
  | error e' => simp [step, hadd]
  | ok d => simp [step, hadd] at h

/-- Every step keeps a draft well formed. -/
theorem step_wellFormed {s : Session} (hs : s.draft.WellFormed) (st : Step) :
    (s.step st).1.draft.WellFormed := by
  cases hst : st.addsDirectory with
  | false => exact (step_edit s hst).wellFormed hs
  | true =>
    -- adding a directory is the one step that is not an edit
    cases st with
    | addDirectory k o =>
      rcases step_addDirectory_draft s k o with h | h
      · exact h ▸ hs
      · exact hs.addDirectory h
    | _ => simp [Step.addsDirectory] at hst

/-- Every step but adding a directory keeps every parent kind present. -/
theorem step_parentClosed {s : Session} (hs : s.draft.WellFormed) (hpc : s.draft.ParentClosed)
    {st : Step} (hst : st.addsDirectory = false) : (s.step st).1.draft.ParentClosed :=
  (step_edit s hst).parentClosed hs hpc

theorem run_wellFormed : ∀ (s : Session) (steps : List Step), s.draft.WellFormed →
    (s.run steps).draft.WellFormed
  | _, [], hs => hs
  | _, st :: steps, hs => run_wellFormed _ steps (step_wellFormed hs st)

theorem run_parentClosed : ∀ (s : Session) (steps : List Step), s.draft.WellFormed →
    s.draft.ParentClosed → (∀ st ∈ steps, st.addsDirectory = false) → (s.run steps).draft.ParentClosed
  | _, [], _, hpc, _ => hpc
  | _, st :: steps, hs, hpc, hadd =>
    run_parentClosed _ steps (step_wellFormed hs st) (step_parentClosed hs hpc (hadd st List.mem_cons_self))
      fun st' h => hadd st' (List.mem_cons_of_mem _ h)

/-- Editing keeps a draft well formed along every run of steps from a well-formed draft, such as
the empty draft of a new session or the draft of a read segment, and every step but adding a
directory keeps every parent kind present. Creating a kind makes it and all its ancestors present,
and a step that fails to add a directory or a field leaves the session as it was. -/
theorem edit_invariant :
    (∀ (s : Session) (steps : List Step), s.draft.WellFormed → (s.run steps).draft.WellFormed) ∧
    (∀ (s : Session) (steps : List Step), s.draft.WellFormed → s.draft.ParentClosed →
      (∀ st ∈ steps, st.addsDirectory = false) → (s.run steps).draft.ParentClosed) ∧
    (∀ (d : Draft) (k c : DirectoryKind), Relation.ReflTransGen (fun a b => a.parent? = some b) k c →
      (d.getOrCreate k).Has c) ∧
    (∀ (s : Session) (k : DirectoryKind) (o : Option ByteOrder) (e : SessionError),
      (s.step (.addDirectory k o)).2 = .error e → (s.step (.addDirectory k o)).1 = s) ∧
    (∀ (s : Session) (k : DirectoryKind) (f : FieldSpec) (e : SessionError),
      (s.step (.addField k f)).2 = .error e → (s.step (.addField k f)).1 = s) :=
  ⟨run_wellFormed, run_parentClosed, fun d _ _ h => Draft.has_getOrCreate d h,
    fun _ _ _ _ h => step_addDirectory_error h, fun _ _ _ _ h => editDirectory_error h⟩

/-- A new session that creates the GPS directory, adds a field to it and lays the draft out. -/
theorem edit_invariant_gps :
    (start .little).draft.WellFormed ∧ (start .little).draft.ParentClosed ∧
      (∀ st ∈ [Step.getOrCreateGps, .addField .gps (.short ⟨1⟩ 2), .summarize],
        st.addsDirectory = false) ∧
      ((start .little).run [.getOrCreateGps, .addField .gps (.short ⟨1⟩ 2), .summarize]).draft.WellFormed ∧
      ((start .little).run [.getOrCreateGps, .addField .gps (.short ⟨1⟩ 2), .summarize]).draft.ParentClosed :=
  ⟨Draft.wellFormed_empty _, Draft.parentClosed_empty _, by decide,
    edit_invariant.1 _ _ (Draft.wellFormed_empty _),
    edit_invariant.2.1 _ _ (Draft.wellFormed_empty _) (Draft.parentClosed_empty _) (by decide)⟩

end Session

end TiffLayout
