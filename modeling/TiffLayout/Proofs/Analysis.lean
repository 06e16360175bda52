import TiffLayout.Proofs.Occupied
import TiffLayout.Proofs.Bytes
/-! What the analysis of an old segment does to its draft: only the first field with a frozen tag
keeps the old offset of an unchanged value, and the ranges reused and the values kept make up
the old segment. -/
namespace TiffLayout

open Buffer

/-- Every value that the directory stores out of line stands in `data` at its offset, after the
header, and is longer than a slot. -/
def Ifd.ValuesIn (data : ByteArray) (x : Ifd) : Prop :=
  ∀ e ∈ x.entries, ∀ q, e.slot = .outOfLine q →
    headerSize ≤ q ∧ 4 < e.value.size ∧ Holds data q e.value.data.toList

/-- No value of a frozen tag that a segment stores out of line shares a byte with another range of
the segment. -/
def Segment.FrozenApart (s : Segment) (frozen : List Tag) : Prop :=
  ∀ x ∈ s.ifds, ∀ e ∈ x.entries, e.tag ∈ frozen → ∀ r ∈ e.extent?,
    ∀ r' ∈ (s.ifds.flatMap Ifd.extents).erase r, r.Apart r'

instance (s : Segment) (frozen : List Tag) : Decidable (s.FrozenApart frozen) :=
  inferInstanceAs (Decidable (∀ x ∈ s.ifds, ∀ e ∈ x.entries, e.tag ∈ frozen → ∀ r ∈ e.extent?,
    ∀ r' ∈ (s.ifds.flatMap Ifd.extents).erase r, r.Apart r'))

/-- When no two ranges of a segment share a byte, no frozen value does. -/
theorem Segment.FrozenApart.of_pairwise {s : Segment} (frozen : List Tag)
    (h : (s.ifds.flatMap Ifd.extents).Pairwise Extent.Apart) : s.FrozenApart frozen := by
  intro x hx e he _ r hr r' hr'
  have hmem : r ∈ s.ifds.flatMap Ifd.extents := by
    refine List.mem_flatMap.2 ⟨x, hx, ?_⟩
    simp only [Ifd.extents, List.mem_cons, List.mem_append, List.mem_filterMap]
    exact Or.inl (Or.inr ⟨e, he, hr⟩)
  exact List.rel_of_pairwise_cons (h.perm (List.perm_cons_erase hmem) fun h => h.symm) hr'

namespace Segment

theorem holds_of_slice? {data b : ByteArray} {p n : Nat} (h : slice? data p n = some b) :
    Holds data p b.data.toList := by
  have hbound := (slice?_eq_some h).1
  unfold slice? at h
  rw [if_pos hbound, Option.some.injEq] at h
  subst h
  simp only [ByteArray.data_extract, Array.toList_extract, List.extract_eq_take_drop]
  refine ⟨by simp; omega, fun i hi => ?_⟩
  rw [List.length_take] at hi
  rw [List.getElem?_take_of_lt (by omega), List.getElem?_drop]

theorem readEntry_value {data : ByteArray} {o : ByteOrder} {p q : Nat} {e : Entry}
    (h : readEntry data o p = .ok e) (hq : e.slot = .outOfLine q) :
    headerSize ≤ q ∧ 4 < e.value.size ∧ Holds data q e.value.data.toList := by
  obtain ⟨_, -, h⟩ := bind_eq_ok.1 h
  obtain ⟨raw, -, h⟩ := bind_eq_ok.1 h
  obtain ⟨length, -, h⟩ := bind_eq_ok.1 h
  split at h
  · cases h
    cases hq
  · rename_i hlong
    dsimp only at h
    split at h
    · rename_i value hslice
      split at h
      · cases h
        cases hq
        exact ⟨‹_›, by rw [(slice?_eq_some hslice).2]; omega, holds_of_slice? hslice⟩
      · cases h
    · cases h

theorem readIfd_values {data : ByteArray} {o : ByteOrder} {kind : DirectoryKind} {offset : Nat}
    {x : Ifd} (h : readIfd data o kind offset = .ok x) : x.ValuesIn data := by
  obtain ⟨n, entries, -, -, -, hentries, -, -, rfl⟩ := readIfd_eq_ok h
  intro e he q hq
  obtain ⟨i, -, hi⟩ := exists_of_mem_mapM hentries he
  exact readEntry_value hi hq

/-- Every value that a read segment stores out of line stands in the data at its offset. -/
theorem read_values {data : ByteArray} {s : Segment} (h : read data = .ok s) :
    ∀ x ∈ s.ifds, x.ValuesIn data :=
  read_found _ (fun _ _ _ _ _ hx => readIfd_values hx) h

end Segment

namespace Directory

theorem map_updateField_go {β : Type} {t : Tag} {g : Field → Field} {h : Field → β}
    (hg : ∀ f, h (g f) = h f) : ∀ fs, (updateField.go t g fs).map h = fs.map h
  | [] => rfl
  | f :: fs => by
    unfold updateField.go
    split <;> simp [hg, map_updateField_go hg fs]

/-- Changing the first field with a tag changes the field that a lookup by the tag finds. -/
theorem mem_updateField_go {t : Tag} {g : Field → Field} {f f' : Field} :
    ∀ {fs : List Field}, fs.find? (·.tag = t) = some f → f' ∈ updateField.go t g fs →
      f' ∈ fs ∨ f' = g f
  | [], h, _ => by simp at h
  | f₀ :: fs, h, hf' => by
    unfold updateField.go at hf'
    rw [List.find?_cons] at h
    by_cases ht : f₀.tag = t
    · simp only [ht, decide_true, Option.some.injEq] at h
      subst h
      rw [if_pos ht] at hf'
      rcases List.mem_cons.1 hf' with rfl | hf'
      · exact Or.inr rfl
      · exact Or.inl (List.mem_cons_of_mem _ hf')
    · simp only [ht, decide_false] at h
      rw [if_neg ht] at hf'
      rcases List.mem_cons.1 hf' with rfl | hf'
      · exact Or.inl List.mem_cons_self
      · rcases mem_updateField_go h hf' with hf' | rfl
        · exact Or.inl (List.mem_cons_of_mem _ hf')
        · exact Or.inr rfl

/-- Changing the first field with a tag, keeping tags, leaves the fields of other tags. -/
theorem filter_updateField_go_ne {t t' : Tag} {g : Field → Field} (hg : ∀ f, (g f).tag = f.tag)
    (hne : t' ≠ t) : ∀ fs, (updateField.go t' g fs).filter (·.tag = t) = fs.filter (·.tag = t)
  | [] => rfl
  | f :: fs => by
    unfold updateField.go
    by_cases hf : f.tag = t'
    · have hft : f.tag ≠ t := hf ▸ hne
      rw [if_pos hf, List.filter_cons, List.filter_cons, hg]
      simp [hft]
    · rw [if_neg hf, List.filter_cons, List.filter_cons, filter_updateField_go_ne hg hne fs]

/-- Changing the first field with a tag, keeping tags, changes the first of the fields with it. -/
theorem filter_updateField_go_self {t : Tag} {g : Field → Field} (hg : ∀ f, (g f).tag = f.tag) :
    ∀ fs, (updateField.go t g fs).filter (·.tag = t) = (fs.filter (·.tag = t)).modifyHead g
  | [] => rfl
  | f :: fs => by
    unfold updateField.go
    by_cases hf : f.tag = t
    · rw [if_pos hf, List.filter_cons, List.filter_cons, hg]
      simp [hf]
    · rw [if_neg hf, List.filter_cons, List.filter_cons, filter_updateField_go_self hg fs]
      simp [hf]

/-- Changing the first field with a tag, keeping tags, leaves the first field with another. -/
theorem find?_updateField_ne {x : Directory} {t t' : Tag} {g : Field → Field}
    (hg : ∀ f, (g f).tag = f.tag) (hne : t' ≠ t) : (x.updateField t' g).find? t = x.find? t := by
  simp only [find?, updateField, ← List.head?_filter, filter_updateField_go_ne hg hne]

/-- Changing the first field with a tag, keeping tags, changes the field that a lookup finds. -/
theorem find?_updateField_self {x : Directory} {t : Tag} {g : Field → Field}
    (hg : ∀ f, (g f).tag = f.tag) : (x.updateField t g).find? t = (x.find? t).map g := by
  simp only [find?, updateField, ← List.head?_filter, filter_updateField_go_self hg]
  cases x.fields.filter (·.tag = t) <;> rfl

end Directory

namespace Draft

/-- Keeping an offset changes at most one field, into the field with the offset kept: the first
with the tag in the first directory that has the tag, when it lies out of line and its value is
the one kept. -/
theorem mem_keepOffsetIn {t : Tag} {v : ByteArray} {q : Nat} :
    ∀ {dirs : List Directory} {z' : Directory} {g' : Field},
      z' ∈ (keepOffsetIn t v q dirs).1 → g' ∈ z'.fields →
      (∃ z ∈ dirs, g' ∈ z.fields) ∨
        ∃ f : Field, f.outOfLine ∧ f.bytes.data = v.data ∧ g' = { f with keptOffset := some q }
  | [], z', g', h, _ => by simp [keepOffsetIn] at h
  | x :: xs, z', g', h, hg' => by
    unfold keepOffsetIn at h
    split at h
    · rename_i f hf
      split at h
      · rename_i hcond
        rcases List.mem_cons.1 h with rfl | h
        · rcases Directory.mem_updateField_go hf hg' with hg' | rfl
          · exact Or.inl ⟨_, List.mem_cons_self, hg'⟩
          · exact Or.inr ⟨f, hcond.1, hcond.2.2, rfl⟩
        · exact Or.inl ⟨z', List.mem_cons_of_mem _ h, hg'⟩
      · exact Or.inl ⟨z', h, hg'⟩
    · rcases hk : keepOffsetIn t v q xs with ⟨rest, kept⟩
      rw [hk] at h
      rcases List.mem_cons.1 h with rfl | h
      · exact Or.inl ⟨z', List.mem_cons_self, hg'⟩
      · rcases mem_keepOffsetIn (by rw [hk]; exact h) hg' with ⟨z, hz, hg'⟩ | hnew
        · exact Or.inl ⟨z, List.mem_cons_of_mem _ hz, hg'⟩
        · exact Or.inr hnew

theorem mem_keepOffset {d d' : Draft} {t : Tag} {v : ByteArray} {q : Nat} {b : Bool}
    (h : d.keepOffset t v q = (d', b)) {z' : Directory} (hz' : z' ∈ d'.dirs) {g' : Field}
    (hg' : g' ∈ z'.fields) :
    (∃ z ∈ d.dirs, g' ∈ z.fields) ∨
      ∃ f : Field, f.outOfLine ∧ f.bytes.data = v.data ∧ g' = { f with keptOffset := some q } := by
  have hdirs : d'.dirs = (keepOffsetIn t v q d.dirs).1 := by
    rw [← congrArg (·.1.dirs) h]
    rfl
  exact mem_keepOffsetIn (hdirs ▸ hz') hg'

theorem keepOffsetIn_clear {t : Tag} {v : ByteArray} {q : Nat} : ∀ dirs : List Directory,
    (keepOffsetIn t v q dirs).1.map (fun x : Directory =>
      { x with fields := x.fields.map fun f : Field => { f with keptOffset := none } }) =
    dirs.map fun x : Directory =>
      { x with fields := x.fields.map fun f : Field => { f with keptOffset := none } }
  | [] => rfl
  | x :: xs => by
    unfold keepOffsetIn
    split
    · split
      · simp [Directory.updateField, Directory.map_updateField_go]
      · rfl
    · simp [keepOffsetIn_clear xs]

/-- Keeping an offset changes no field but in its kept offset. -/
theorem keepOffset_clear (d : Draft) (t : Tag) (v : ByteArray) (q : Nat) :
    (d.keepOffset t v q).1.clearKeptOffsets = d.clearKeptOffsets := by
  simp only [keepOffset, clearKeptOffsets, keepOffsetIn_clear]

/-- Keeping an offset that is not kept leaves the directories as they are. -/
theorem keepOffsetIn_fst_of_snd {t : Tag} {v : ByteArray} {q : Nat} :
    ∀ {dirs : List Directory}, (keepOffsetIn t v q dirs).2 = false →
      (keepOffsetIn t v q dirs).1 = dirs
  | [], _ => rfl
  | x :: xs, h => by
    rcases hfind : x.find? t with _ | f
    · rcases hk : keepOffsetIn t v q xs with ⟨rest, kept⟩
      simp only [keepOffsetIn, hfind, hk] at h ⊢
      have hrest := @keepOffsetIn_fst_of_snd t v q xs (by rw [hk]; exact h)
      rw [hk] at hrest
      rw [show rest = xs from hrest]
    · by_cases hcond : f.outOfLine ∧ f.keptOffset = none ∧ f.bytes.data = v.data
      · simp [keepOffsetIn, hfind, hcond] at h
      · simp [keepOffsetIn, hfind, hcond]

/-- Keeping the offset of a value of another tag leaves the first field with tag `t` of every
directory. -/
theorem find?_keepOffsetIn_ne {t t' : Tag} (hne : t' ≠ t) {v : ByteArray} {q : Nat} :
    ∀ dirs : List Directory, (keepOffsetIn t' v q dirs).1.map (·.find? t) = dirs.map (·.find? t)
  | [] => rfl
  | x :: xs => by
    unfold keepOffsetIn
    split
    · split
      · simp only [List.map_cons, List.cons.injEq, and_true]
        exact Directory.find?_updateField_ne (fun _ => rfl) hne
      · rfl
    · rcases hk : keepOffsetIn t' v q xs with ⟨rest, kept⟩
      have hrest := find?_keepOffsetIn_ne hne (v := v) (q := q) xs
      rw [hk] at hrest
      simp [hrest]

/-- Keeping an offset, when the directories before `x` have no field with the tag and `x` has `f`,
looks at `f` alone. -/
theorem keepOffsetIn_append {t : Tag} {v : ByteArray} {q : Nat} {x : Directory} {f : Field}
    (hx : x.find? t = some f) (post : List Directory) :
    ∀ {pre : List Directory}, (∀ z ∈ pre, z.find? t = none) →
      keepOffsetIn t v q (pre ++ x :: post) =
        if f.outOfLine ∧ f.keptOffset = none ∧ f.bytes.data = v.data then
          (pre ++ x.updateField t (fun f => { f with keptOffset := some q }) :: post, true)
        else (pre ++ x :: post, false)
  | [], _ => by
    by_cases hcond : f.outOfLine ∧ f.keptOffset = none ∧ f.bytes.data = v.data
    · simp [keepOffsetIn, hx, hcond]
    · simp [keepOffsetIn, hx, hcond]
  | z :: pre, hpre => by
    have hz : z.find? t = none := hpre z List.mem_cons_self
    have ih := keepOffsetIn_append (v := v) (q := q) hx post fun z' hz' => hpre z' (List.mem_cons_of_mem z hz')
    rw [List.cons_append]
    unfold keepOffsetIn
    rw [hz]
    dsimp only
    rw [ih]
    split <;> rfl

/-- Among directories, the `i`-th is the first with a field of tag `t`, and that field is `g`:
the field that a lookup by the tag across the directories finds. -/
structure FirstWith (t : Tag) (i : Nat) (g : Field) (dirs : List Directory) : Prop where
  before : ∀ j < i, ∀ z, dirs[j]? = some z → z.find? t = none
  here : ∃ x, dirs[i]? = some x ∧ x.find? t = some g

/-- Which directory holds the first field with a tag, and that field, depend on the fields that
lookups by the tag find alone. -/
theorem FirstWith.of_map {t : Tag} {i : Nat} {g : Field} {dirs dirs' : List Directory}
    (h : FirstWith t i g dirs) (hmap : dirs'.map (·.find? t) = dirs.map (·.find? t)) :
    FirstWith t i g dirs' := by
  have hget : ∀ j, (dirs'[j]?).map (fun z : Directory => z.find? t) =
      (dirs[j]?).map (fun z : Directory => z.find? t) := fun j => by
    rw [← List.getElem?_map, ← List.getElem?_map, hmap]
  refine ⟨fun j hj z hz => ?_, ?_⟩
  · have := hget j
    rw [hz] at this
    obtain ⟨z₀, hz₀, heq⟩ := Option.map_eq_some_iff.1 this.symm
    have hnone := h.before j hj z₀ hz₀
    simp only at heq
    rwa [← heq]
  · obtain ⟨x, hx, hg⟩ := h.here
    have := hget i
    rw [hx] at this
    obtain ⟨x', hx', heq⟩ := Option.map_eq_some_iff.1 this
    exact ⟨x', hx', heq.trans hg⟩

/-- Keeping the offset of a value with the tag looks at the first field with it alone. -/
theorem FirstWith.keepOffsetIn {t : Tag} {i : Nat} {g : Field} {dirs : List Directory}
    (h : FirstWith t i g dirs) (v : ByteArray) (q : Nat) :
    FirstWith t i (if g.outOfLine ∧ g.keptOffset = none ∧ g.bytes.data = v.data then
      { g with keptOffset := some q } else g) (keepOffsetIn t v q dirs).1 := by
  obtain ⟨x, hx, hg⟩ := h.here
  obtain ⟨hi, hxi⟩ := List.getElem?_eq_some_iff.1 hx
  have hsplit : dirs = dirs.take i ++ x :: dirs.drop (i + 1) := by
    rw [← hxi, List.getElem_cons_drop, List.take_append_drop]
  have hpre : ∀ z ∈ dirs.take i, z.find? t = none := by
    intro z hz
    obtain ⟨j, hj, rfl⟩ := List.getElem_of_mem hz
    rw [List.length_take] at hj
    exact h.before j (by omega) _ (by rw [List.getElem_take]; exact List.getElem?_eq_getElem _)
  have hlen : (dirs.take i).length = i := by rw [List.length_take]; omega
  rw [hsplit, keepOffsetIn_append hg _ hpre]
  split
  · rename_i hcond
    refine ⟨fun j hj z hz => ?_, ⟨x.updateField t fun f => { f with keptOffset := some q }, ?_, ?_⟩⟩
    · rw [List.getElem?_append_left (by omega)] at hz
      exact hpre z (List.mem_of_getElem? hz)
    · rw [List.getElem?_append_right (by omega), hlen, Nat.sub_self]
      rfl
    · rw [Directory.find?_updateField_self (g := fun f => { f with keptOffset := some q }) (fun _ => rfl), hg]
      rfl
  · rw [← hsplit]
    exact h

/-- A field keeps an offset only where the old segment `data` holds its value, out of line after
the header. -/
def KeptIn (data : ByteArray) (d : Draft) : Prop :=
  ∀ x ∈ d.dirs, ∀ f ∈ x.fields, ∀ q, f.keptOffset = some q →
    headerSize ≤ q ∧ f.outOfLine ∧ Holds data q f.bytes.data.toList

end Draft

namespace Gaps

/-- What the analysis keeps while it goes over the ranges `seen` of an old segment `data`: the
ranges given for reuse and the ranges of the values kept in place are the ranges seen, each once;
every field keeps an offset only where the old segment holds its value; and the draft differs from
the one analysed only in offsets kept. -/
structure Kept (data : ByteArray) (d₀ : Draft) (seen : List Extent) (acc : List Extent × Draft) :
    Prop where
  ranges : ∃ K : List Extent, (acc.1 ++ K).Perm seen ∧
    ∀ x ∈ acc.2.dirs, ∀ f ∈ x.fields, ∀ q, f.keptOffset = some q → ⟨q, f.bytes.size⟩ ∈ K
  values : acc.2.KeptIn data
  clear : acc.2.clearKeptOffsets = d₀.clearKeptOffsets

section Kept

variable {data : ByteArray} {d₀ : Draft} {frozen : List Tag}

theorem Kept.init (hd : ∀ x ∈ d₀.dirs, ∀ f ∈ x.fields, f.keptOffset = none) :
    Kept data d₀ [] ([], d₀) where
  ranges := ⟨[], List.Perm.refl _, fun x hx f hf q hq => by simp [hd x hx f hf] at hq⟩
  values x hx f hf q hq := by simp [hd x hx f hf] at hq
  clear := rfl

/-- A range given for reuse is a range seen. -/
theorem Kept.reuse {seen acc : List Extent} {d : Draft} (hk : Kept data d₀ seen (acc, d))
    (r : Extent) : Kept data d₀ (seen ++ [r]) (acc ++ [r], d) where
  ranges := by
    obtain ⟨K, hperm, hK⟩ := hk.ranges
    have hswap : ([r] ++ K).Perm (K ++ [r]) := List.perm_append_comm
    refine ⟨K, ?_, hK⟩
    rw [List.append_assoc]
    exact (hswap.append_left acc).trans (by simpa only [List.append_assoc] using hperm.append_right [r])
  values := hk.values
  clear := hk.clear

/-- A value kept in place is a range seen. -/
theorem Kept.keep {seen acc : List Extent} {d d' : Draft} (hk : Kept data d₀ seen (acc, d))
    {e : Entry} {q : Nat} (hq : headerSize ≤ q ∧ 4 < e.value.size ∧ Holds data q e.value.data.toList)
    (hkeep : d.keepOffset e.tag e.value q = (d', true)) :
    Kept data d₀ (seen ++ [⟨q, e.value.size⟩]) (acc, d') where
  ranges := by
    obtain ⟨K, hperm, hK⟩ := hk.ranges
    refine ⟨K ++ [⟨q, e.value.size⟩], by simpa only [List.append_assoc] using hperm.append_right _, ?_⟩
    intro x hx f hf q' hq'
    rcases Draft.mem_keepOffset hkeep hx hf with ⟨z, hz, hf⟩ | ⟨f₀, -, hdata, rfl⟩
    · exact List.mem_append_left _ (hK z hz f hf q' hq')
    · obtain rfl : q = q' := Option.some.inj hq'
      have hsize : f₀.bytes.size = e.value.size := congrArg Array.size hdata
      simp [hsize]
  values := by
    intro x hx f hf q' hq'
    rcases Draft.mem_keepOffset hkeep hx hf with ⟨z, hz, hf⟩ | ⟨f₀, hout, hdata, rfl⟩
    · exact hk.values z hz f hf q' hq'
    · obtain rfl : q = q' := Option.some.inj hq'
      exact ⟨hq.1, hout, by simpa [hdata] using hq.2.2⟩
  clear := by
    rw [← hk.clear, ← Draft.keepOffset_clear d e.tag e.value q, hkeep]

/-- The analysis of an entry whose value the old segment holds keeps `Kept`, with the entry's
range seen. -/
theorem Kept.entry {seen : List Extent} {acc : List Extent × Draft} (hk : Kept data d₀ seen acc)
    {e : Entry} (he : ∀ q, e.slot = .outOfLine q →
      headerSize ≤ q ∧ 4 < e.value.size ∧ Holds data q e.value.data.toList) :
    Kept data d₀ (seen ++ e.extent?.toList) (ofEntry frozen acc e) := by
  obtain ⟨acc, d⟩ := acc
  unfold ofEntry
  dsimp only
  split
  · rename_i q hq
    have hext : e.extent?.toList = [⟨q, e.value.size⟩] := by simp [Entry.extent?, hq]
    rw [hext]
    split
    · split
      · rename_i d' hkeep
        exact hk.keep (he q hq) hkeep
      · exact hk.reuse _
    · exact hk.reuse _
  · rename_i bs hbs
    have hext : e.extent?.toList = [] := by simp [Entry.extent?, hbs]
    rw [hext, List.append_nil]
    exact hk

/-- The analysis of a directory whose values the old segment holds keeps `Kept`, with the
directory's ranges seen: its table, its values in entry order, then its thumbnail. -/
theorem Kept.ifd {seen : List Extent} {acc : List Extent × Draft} (hk : Kept data d₀ seen acc)
    {x : Ifd} (hx : x.ValuesIn data) : Kept data d₀ (seen ++ x.extents) (ofIfd frozen acc x) := by
  have hentries : ∀ es : List Entry, (∀ e ∈ es, e ∈ x.entries) →
      ∀ {seen' : List Extent} {acc' : List Extent × Draft}, Kept data d₀ seen' acc' →
        Kept data d₀ (seen' ++ es.filterMap Entry.extent?) (es.foldl (ofEntry frozen) acc') := by
    intro es
    induction es with
    | nil =>
      intro _ seen' acc' h
      simpa using h
    | cons e es ih =>
      intro hes seen' acc' h
      have h₁ : Kept data d₀ (seen' ++ e.extent?.toList) (ofEntry frozen acc' e) :=
        h.entry (hx e (hes e List.mem_cons_self))
      have hsplit : seen' ++ (e :: es).filterMap Entry.extent? =
          seen' ++ e.extent?.toList ++ es.filterMap Entry.extent? := by
        rcases hext : e.extent? with _ | r <;> simp [hext]
      rw [hsplit, List.foldl_cons]
      exact ih (fun e' he' => hes e' (List.mem_cons_of_mem _ he')) h₁
  obtain ⟨acc, d⟩ := acc
  have h₁ := hentries x.entries (fun e he => he) (hk.reuse ⟨x.offset, x.table.size⟩)
  have hext : seen ++ x.extents = seen ++ [⟨x.offset, x.table.size⟩] ++
      x.entries.filterMap Entry.extent? ++
        (x.thumbnail.map fun t => (⟨t.offset, t.bytes.size⟩ : Extent)).toList := by
    simp [Ifd.extents]
  rw [hext]
  unfold ofIfd
  dsimp only
  rcases hf : x.entries.foldl (ofEntry frozen) (acc ++ [⟨x.offset, x.table.size⟩], d) with
    ⟨acc₁, d₁⟩
  rw [hf] at h₁
  simp only [hf]
  cases ht : x.thumbnail with
  | none => simpa using h₁
  | some t => simpa using h₁.reuse ⟨t.offset, t.bytes.size⟩

theorem Kept.ifds : ∀ {xs : List Ifd} {seen : List Extent} {acc : List Extent × Draft},
    (∀ x ∈ xs, x.ValuesIn data) → Kept data d₀ seen acc →
    Kept data d₀ (seen ++ xs.flatMap Ifd.extents) (xs.foldl (ofIfd frozen) acc)
  | [], seen, acc, _, hk => by simpa using hk
  | x :: xs, seen, acc, hxs, hk => by
    rw [List.foldl_cons, List.flatMap_cons, ← List.append_assoc]
    exact Kept.ifds (fun y hy => hxs y (List.mem_cons_of_mem _ hy))
      (hk.ifd (hxs x List.mem_cons_self))

end Kept

section Draft

variable {frozen : List Tag}

/-- What the analysis of an entry does to the draft does not depend on the ranges gathered. -/
theorem ofEntry_snd (acc : List Extent) (d : Draft) (e : Entry) :
    (ofEntry frozen (acc, d) e).2 = (ofEntry frozen ([], d) e).2 := by
  obtain ⟨tag, type, count, position, slot, value⟩ := e
  cases slot with
  | inline bs => rfl
  | outOfLine p =>
    simp only [ofEntry]
    split
    · split <;> rfl
    · rfl

/-- The draft that the analysis of entries gives, whatever the ranges gathered before. -/
theorem foldl_ofEntry_snd : ∀ (es : List Entry) (acc : List Extent) (d : Draft),
    (es.foldl (ofEntry frozen) (acc, d)).2 = es.foldl (fun d e => (ofEntry frozen ([], d) e).2) d
  | [], _, _ => rfl
  | e :: es, acc, d => by
    rw [List.foldl_cons, List.foldl_cons]
    rcases h : ofEntry frozen (acc, d) e with ⟨acc₁, d₁⟩
    have hd₁ : (ofEntry frozen ([], d) e).2 = d₁ := by rw [← ofEntry_snd acc d e, h]
    rw [foldl_ofEntry_snd es acc₁ d₁, hd₁]

/-- The draft that the analysis of directories gives is that of their entries, in order. -/
theorem foldl_ofIfd_snd : ∀ (xs : List Ifd) (acc : List Extent) (d : Draft),
    (xs.foldl (ofIfd frozen) (acc, d)).2 =
      (xs.flatMap (·.entries)).foldl (fun d e => (ofEntry frozen ([], d) e).2) d
  | [], _, _ => rfl
  | x :: xs, acc, d => by
    rw [List.foldl_cons, List.flatMap_cons, List.foldl_append]
    rcases h : ofIfd frozen (acc, d) x with ⟨acc₁, d₁⟩
    have hd₁ : d₁ = x.entries.foldl (fun d e => (ofEntry frozen ([], d) e).2) d := by
      have hsnd : (ofIfd frozen (acc, d) x).2 =
          (x.entries.foldl (ofEntry frozen) (acc ++ [⟨x.offset, x.table.size⟩], d)).2 := by
        unfold ofIfd
        dsimp only
        split <;> rfl
      rw [← foldl_ofEntry_snd x.entries _ d, ← hsnd, h]
    rw [foldl_ofIfd_snd xs acc₁ d₁, hd₁]

/-- The analysis of a frozen value stored out of line tries to keep its offset. -/
theorem ofEntry_keepOffset (d : Draft) {e : Entry} {q : Nat} (hq : e.slot = .outOfLine q)
    (hfrozen : e.tag ∈ frozen) :
    (ofEntry frozen ([], d) e).2.dirs = (Draft.keepOffsetIn e.tag e.value q d.dirs).1 := by
  simp only [ofEntry, hq, List.contains_iff_mem.2 hfrozen, if_true]
  split
  · rename_i d' hkeep
    rw [← congrArg (·.1.dirs) hkeep]
    rfl
  · rename_i d' hkeep
    exact (Draft.keepOffsetIn_fst_of_snd (congrArg (·.2) hkeep)).symm

/-- The analysis of any other entry leaves the draft. -/
theorem ofEntry_eq_self (d : Draft) {e : Entry} (h : ∀ q, e.slot = .outOfLine q → e.tag ∉ frozen) :
    (ofEntry frozen ([], d) e).2 = d := by
  cases hs : e.slot with
  | inline bs => simp [ofEntry, hs]
  | outOfLine q => simp [ofEntry, hs, h q hs]

/-- Every field that keeps an offset after the analysis of entries holds the value of one of them
with a frozen tag, stored at that offset. -/
theorem foldl_ofEntry_sources {M : List Entry} : ∀ (L : List Entry) (d : Draft), (∀ e ∈ L, e ∈ M) →
    (∀ x ∈ d.dirs, ∀ f ∈ x.fields, ∀ q, f.keptOffset = some q →
      ∃ e ∈ M, e.tag ∈ frozen ∧ e.extent? = some ⟨q, f.bytes.size⟩) →
    ∀ x ∈ (L.foldl (fun d e => (ofEntry frozen ([], d) e).2) d).dirs, ∀ f ∈ x.fields, ∀ q,
      f.keptOffset = some q → ∃ e ∈ M, e.tag ∈ frozen ∧ e.extent? = some ⟨q, f.bytes.size⟩
  | [], _, _, hd => hd
  | e :: L, d, hL, hd => by
    rw [List.foldl_cons]
    refine foldl_ofEntry_sources L _ (fun e' he' => hL e' (List.mem_cons_of_mem e he')) ?_
    intro x hx f hf q hq
    by_cases hkeep : ∃ p, e.slot = .outOfLine p ∧ e.tag ∈ frozen
    · obtain ⟨p, hp, hfrozen⟩ := hkeep
      rw [ofEntry_keepOffset d hp hfrozen] at hx
      rcases Draft.mem_keepOffsetIn hx hf with ⟨z, hz, hfz⟩ | ⟨f₀, -, hdata, rfl⟩
      · exact hd z hz f hfz q hq
      · obtain rfl : p = q := Option.some.inj hq
        have hsize : f₀.bytes.size = e.value.size := congrArg Array.size hdata
        exact ⟨e, hL e List.mem_cons_self, hfrozen, by simp [Entry.extent?, hp, hsize]⟩
    · rw [ofEntry_eq_self d fun p hp hfr => hkeep ⟨p, hp, hfr⟩] at hx
      exact hd x hx f hf q hq

end Draft

end Gaps

namespace Draft.FirstWith

open Gaps

variable {frozen : List Tag} {t : Tag} {i : Nat} {g : Field} {d : Draft}

/-- An entry passes over the first field with tag `t` unless it has the tag and would keep the
field's value. -/
theorem ofEntry_pass (h : Draft.FirstWith t i g d.dirs) {e : Entry}
    (hpass : ¬ (e.tag = t ∧ g.outOfLine ∧ g.keptOffset = none ∧ g.bytes.data = e.value.data)) :
    Draft.FirstWith t i g (ofEntry frozen ([], d) e).2.dirs := by
  by_cases hkeep : ∃ q, e.slot = .outOfLine q ∧ e.tag ∈ frozen
  · obtain ⟨q, hq, hfrozen⟩ := hkeep
    rw [ofEntry_keepOffset d hq hfrozen]
    by_cases ht : e.tag = t
    · have hstep := h.keepOffsetIn e.value q
      rw [if_neg fun hc => hpass ⟨ht, hc⟩] at hstep
      rwa [ht]
    · exact h.of_map (Draft.find?_keepOffsetIn_ne ht d.dirs)
  · rw [ofEntry_eq_self d fun q hq hfr => hkeep ⟨q, hq, hfr⟩]
    exact h

/-- A frozen entry with tag `t` whose value the first field with the tag holds keeps its offset in
that field. -/
theorem ofEntry_keep (h : Draft.FirstWith t i g d.dirs) {e : Entry} (ht : e.tag = t)
    (hfrozen : t ∈ frozen) {q : Nat} (hq : e.slot = .outOfLine q)
    (hcond : g.outOfLine ∧ g.keptOffset = none ∧ g.bytes.data = e.value.data) :
    Draft.FirstWith t i { g with keptOffset := some q } (ofEntry frozen ([], d) e).2.dirs := by
  subst ht
  rw [ofEntry_keepOffset d hq hfrozen]
  have hstep := h.keepOffsetIn e.value q
  rwa [if_pos hcond] at hstep

theorem foldl_pass : ∀ (L : List Entry) {d : Draft}, Draft.FirstWith t i g d.dirs →
    (∀ e ∈ L, ¬ (e.tag = t ∧ g.outOfLine ∧ g.keptOffset = none ∧ g.bytes.data = e.value.data)) →
    Draft.FirstWith t i g (L.foldl (fun d e => (ofEntry frozen ([], d) e).2) d).dirs
  | [], _, h, _ => h
  | e :: L, _, h, hL => by
    rw [List.foldl_cons]
    exact foldl_pass L (h.ofEntry_pass (hL e List.mem_cons_self))
      fun e' he' => hL e' (List.mem_cons_of_mem e he')

end Draft.FirstWith

namespace Gaps

section Analyze

variable {old : ByteArray} {o : ByteOrder} {d d₁ : Draft} {frozen : List Tag} {runs : List Extent}

/-- The analysis of an old segment, given a draft that keeps no offset, keeps `Kept` over all the
ranges of the segment. -/
theorem analyze_kept (h : analyze old o d frozen = .ok (runs, d₁))
    (hd : ∀ x ∈ d.dirs, ∀ f ∈ x.fields, f.keptOffset = none) :
    ∃ s extents, Segment.read old = .ok s ∧ Extent.coalesce extents = .ok runs ∧
      Kept old d (s.ifds.flatMap Ifd.extents) (extents, d₁) := by
  obtain ⟨s, hs, -, hruns, hd₁⟩ := analyze_eq_ok h
  have hk : Kept old d ([] ++ s.ifds.flatMap Ifd.extents) (s.ifds.foldl (ofIfd frozen) ([], d)) :=
    Kept.ifds (Segment.read_values hs) (Kept.init hd)
  rw [List.nil_append] at hk
  subst hd₁
  exact ⟨s, _, hs, hruns, hk⟩

/-- The analysis changes no field of a draft that keeps no offset but in the offset it keeps. -/
theorem analyze_clear (h : analyze old o d frozen = .ok (runs, d₁))
    (hd : ∀ x ∈ d.dirs, ∀ f ∈ x.fields, f.keptOffset = none) :
    d₁.clearKeptOffsets = d.clearKeptOffsets := by
  obtain ⟨s, extents, -, -, hk⟩ := analyze_kept h hd
  exact hk.clear

/-- A field keeps an offset only where the old segment holds its value. -/
theorem analyze_keptIn (h : analyze old o d frozen = .ok (runs, d₁))
    (hd : ∀ x ∈ d.dirs, ∀ f ∈ x.fields, f.keptOffset = none) : d₁.KeptIn old := by
  obtain ⟨s, extents, -, -, hk⟩ := analyze_kept h hd
  exact hk.values

/-- The draft that the analysis gives is that of the entries of the old segment, in order. -/
theorem analyze_draft (h : analyze old o d frozen = .ok (runs, d₁)) :
    ∃ s, Segment.read old = .ok s ∧
      d₁ = (s.ifds.flatMap (·.entries)).foldl (fun d e => (ofEntry frozen ([], d) e).2) d := by
  obtain ⟨s, hs, -, -, hd₁⟩ := analyze_eq_ok h
  exact ⟨s, hs, by rw [← hd₁, foldl_ofIfd_snd]⟩

/-- Every field that keeps an offset after the analysis holds the value of an entry of the old
segment with a frozen tag, stored at that offset. -/
theorem analyze_sources (h : analyze old o d frozen = .ok (runs, d₁))
    (hd : ∀ x ∈ d.dirs, ∀ f ∈ x.fields, f.keptOffset = none) {s₀ : Segment}
    (hold : Segment.read old = .ok s₀) :
    ∀ x ∈ d₁.dirs, ∀ f ∈ x.fields, ∀ q, f.keptOffset = some q →
      ∃ e ∈ s₀.ifds.flatMap (·.entries), e.tag ∈ frozen ∧ e.extent? = some ⟨q, f.bytes.size⟩ := by
  obtain ⟨s, hs, rfl⟩ := analyze_draft h
  obtain rfl : s₀ = s := Except.ok.inj (hold.symm.trans hs)
  exact foldl_ofEntry_sources _ d (fun e he => he) fun x hx f hf q hq => by
    simp [hd x hx f hf] at hq

/-- When no frozen value of the old segment shares a byte with another of its ranges, no run given
for reuse meets a value kept in place: the ranges reused are the others, and the value is longer
than the gaps that runs bridge. -/
theorem analyze_frozen_apart (h : analyze old o d frozen = .ok (runs, d₁))
    (hd : ∀ x ∈ d.dirs, ∀ f ∈ x.fields, f.keptOffset = none) {s₀ : Segment}
    (hold : Segment.read old = .ok s₀) (hapart : s₀.FrozenApart frozen) :
    ∀ x ∈ d₁.dirs, ∀ f ∈ x.fields, ∀ q, f.keptOffset = some q →
      ∀ r ∈ runs, Extent.Apart ⟨q, f.bytes.size⟩ r := by
  obtain ⟨s, extents, hs, hruns, hk⟩ := analyze_kept h hd
  obtain rfl : s₀ = s := Except.ok.inj (hold.symm.trans hs)
  obtain ⟨K, hperm, hK⟩ := hk.ranges
  intro x hx f hf q hq
  have hlong : Extent.tolerance < f.bytes.size := by
    have hout := (hk.values x hx f hf q hq).2.1
    simp only [Field.outOfLine, decide_eq_true_eq] at hout
    unfold Extent.tolerance
    omega
  obtain ⟨e, he, hfrozen, hext⟩ := analyze_sources h hd hold x hx f hf q hq
  obtain ⟨y, hy, hey⟩ := List.mem_flatMap.1 he
  have hseen : (s₀.ifds.flatMap Ifd.extents).Perm
      ((⟨q, f.bytes.size⟩ : Extent) :: (extents ++ K.erase ⟨q, f.bytes.size⟩)) :=
    hperm.symm.trans (((List.perm_cons_erase (hK x hx f hf q hq)).append_left extents).trans
      List.perm_middle)
  have hother : ∀ r ∈ extents, r ∈ (s₀.ifds.flatMap Ifd.extents).erase ⟨q, f.bytes.size⟩ := by
    intro r hr
    have herase := hseen.erase (⟨q, f.bytes.size⟩ : Extent)
    rw [List.erase_cons_head] at herase
    exact herase.symm.subset (List.mem_append_left _ hr)
  exact Extent.coalesce_apart hlong hruns fun r hr =>
    hapart y hy e hey hfrozen _ hext r (hother r hr)

/-- When no two ranges of the old segment share a byte, no run given for reuse meets a value
kept in place. -/
theorem analyze_kept_apart (h : analyze old o d frozen = .ok (runs, d₁))
    (hd : ∀ x ∈ d.dirs, ∀ f ∈ x.fields, f.keptOffset = none) {s₀ : Segment}
    (hold : Segment.read old = .ok s₀) (hsep : (s₀.ifds.flatMap Ifd.extents).Pairwise Extent.Apart) :
    ∀ x ∈ d₁.dirs, ∀ f ∈ x.fields, ∀ q, f.keptOffset = some q →
      ∀ r ∈ runs, Extent.Apart ⟨q, f.bytes.size⟩ r :=
  analyze_frozen_apart h hd hold (Segment.FrozenApart.of_pairwise frozen hsep)

/-- The analysis keeps the offset of a frozen value in the first field with its tag, when that
field holds the value unchanged and keeps no offset, and the entry is the first of the old segment
with that tag and value. -/
theorem analyze_keeps_first (h : analyze old o d frozen = .ok (runs, d₁)) {s₀ : Segment}
    (hold : Segment.read old = .ok s₀) {t : Tag} (hfrozen : t ∈ frozen) {i : Nat} {f : Field}
    (hfirst : Draft.FirstWith t i f d.dirs) (hnone : f.keptOffset = none) {e : Entry}
    (he : (s₀.ifds.flatMap (·.entries)).find?
      (fun e' => e'.tag = t ∧ e'.value.data = f.bytes.data) = some e)
    {q : Nat} (hq : e.slot = .outOfLine q) :
    Draft.FirstWith t i { f with keptOffset := some q } d₁.dirs := by
  obtain ⟨s, hs, rfl⟩ := analyze_draft h
  obtain rfl : s₀ = s := Except.ok.inj (hold.symm.trans hs)
  obtain ⟨hmatch, L₁, L₂, hL, hL₁⟩ := List.find?_eq_some_iff_append.1 he
  simp only [decide_eq_true_eq] at hmatch
  -- the value is longer than a slot, as the old segment stores it out of line
  have hmem : e ∈ s₀.ifds.flatMap (·.entries) := hL ▸ List.mem_append_right _ List.mem_cons_self
  obtain ⟨y, hy, hey⟩ := List.mem_flatMap.1 hmem
  have hlong := (Segment.read_values hold y hy e hey q hq).2.1
  have hout : f.outOfLine := by
    have hsize : f.bytes.size = e.value.size := congrArg Array.size hmatch.2.symm
    simp [Field.outOfLine, hsize, hlong]
  rw [hL, List.foldl_append, List.foldl_cons]
  refine Draft.FirstWith.foldl_pass L₂ ?_ fun e' _ hc => absurd hc.2.2.1 (by simp)
  refine Draft.FirstWith.ofEntry_keep ?_ hmatch.1 hfrozen hq ⟨hout, hnone, hmatch.2.symm⟩
  exact Draft.FirstWith.foldl_pass L₁ hfirst fun e' he' hc => by
    simpa [hc.1, hc.2.2.2] using hL₁ e' he'

end Analyze

end Gaps

end TiffLayout
