import TiffLayout.Write.Gaps
import TiffLayout.Proofs.Runs
/-! The byte ranges that a read segment occupies: the entry table of every directory, every value
stored out of line and every thumbnail. The reader only accepts such ranges after the header and
inside the data, so the runs that a new layout reuses lie there too. -/
namespace TiffLayout

/-- The range of a value stored out of line. -/
def Entry.extent? (e : Entry) : Option Extent :=
  match e.slot with
  | .outOfLine p => some ⟨p, e.value.size⟩
  | .inline _ => none

namespace Ifd

/-- The ranges of a directory: its table, its out-of-line values and its thumbnail. -/
def extents (x : Ifd) : List Extent :=
  ⟨x.offset, x.table.size⟩ :: x.entries.filterMap Entry.extent? ++
    (x.thumbnail.map fun t => (⟨t.offset, t.bytes.size⟩ : Extent)).toList

/-- Every range of the directory lies after the header in `size` bytes. -/
def Inside (size : Nat) (x : Ifd) : Prop := ∀ e ∈ x.extents, e.Inside size

end Ifd

namespace Segment

theorem slice?_eq_some {data b : ByteArray} {p n : Nat} (h : slice? data p n = some b) :
    p + n ≤ data.size ∧ b.size = n := by
  unfold slice? at h
  split at h
  · cases h
    refine ⟨‹_›, ?_⟩
    simp only [ByteArray.size_extract]
    omega
  · cases h

/-- An entry that keeps its value out of line keeps it after the header in the data. -/
theorem readEntry_extent_inside {data : ByteArray} {o : ByteOrder} {p : Nat} {e : Entry}
    {r : Extent} (h : readEntry data o p = .ok e) (hr : e.extent? = some r) : r.Inside data.size := by
  obtain ⟨_, -, h⟩ := bind_eq_ok.1 h
  obtain ⟨raw, -, h⟩ := bind_eq_ok.1 h
  obtain ⟨length, hlength, h⟩ := bind_eq_ok.1 h
  split at h
  · cases h
    simp [Entry.extent?] at hr
  · rename_i hlong
    dsimp only at h
    split at h
    · rename_i value hslice
      split at h
      · cases h
        simp only [Entry.extent?, Option.some.injEq] at hr
        subst hr
        obtain ⟨hbound, hsize⟩ := slice?_eq_some hslice
        exact ⟨‹_›, by simp only [hsize]; omega, by simp only [Extent.stop, hsize]; omega⟩
      · cases h
    · cases h

/-- A thumbnail is never empty and lies after the header in the data. -/
theorem thumbnailOf_inside {data : ByteArray} {o : ByteOrder} {entries : List Entry}
    {t : Thumbnail} (h : thumbnailOf data o entries = some t) :
    (⟨t.offset, t.bytes.size⟩ : Extent).Inside data.size := by
  simp only [thumbnailOf, Option.bind_eq_bind, Option.bind_eq_some_iff] at h
  obtain ⟨offset, -, length, -, h⟩ := h
  split at h
  · cases h
  · rename_i hlength
    split at h
    · obtain ⟨bytes, hslice, rfl⟩ := Option.map_eq_some_iff.1 h
      obtain ⟨hbound, hsize⟩ := slice?_eq_some hslice
      exact ⟨‹_›, by simp only [hsize]; omega, by simp only [Extent.stop, hsize]; omega⟩
    · cases h

theorem tableLength?_eq_ok {n length : Nat} (h : tableLength? n = .ok length) :
    length = Ifd.tableLength n := by
  obtain ⟨entries, he, h⟩ := bind_eq_ok.1 h
  obtain ⟨withCount, hc, h⟩ := bind_eq_ok.1 h
  obtain ⟨-, rfl⟩ := Width.mul_ok_iff.1 he
  obtain ⟨-, rfl⟩ := Width.add_ok_iff.1 hc
  obtain ⟨-, rfl⟩ := Width.add_ok_iff.1 h
  simp only [Ifd.tableLength, entrySize]
  omega

/-- What reading a table gives, in the order the reader takes it up: the entry count, the
entries, the next-directory offset, and the table's bytes. -/
theorem readIfd_eq_ok {data : ByteArray} {o : ByteOrder} {kind : DirectoryKind} {offset : Nat}
    {x : Ifd} (h : readIfd data o kind offset = .ok x) :
    ∃ n entries next table, wordAt data o offset 2 = .ok n ∧
      (List.range n).mapM (fun i => readEntry data o (offset + 2 + entrySize * i)) = .ok entries ∧
      wordAt data o (offset + 2 + entrySize * n) 4 = .ok next ∧
      slice? data offset (Ifd.tableLength n) = some table ∧
      x = ⟨kind, offset, entries, next, thumbnailOf data o entries, table⟩ := by
  obtain ⟨n, hn, h⟩ := bind_eq_ok.1 h
  obtain ⟨entries, hentries, h⟩ := bind_eq_ok.1 h
  obtain ⟨next, hnext, h⟩ := bind_eq_ok.1 h
  obtain ⟨length, hlength, h⟩ := bind_eq_ok.1 h
  obtain rfl := tableLength?_eq_ok (mapError_eq_ok.1 hlength)
  split at h
  · rename_i table htable
    simp only [pure, Except.pure, Except.ok.injEq] at h
    exact ⟨n, entries, next, table, hn, hentries, hnext, htable, h.symm⟩
  · cases h

/-- A directory read at an offset after the header occupies only ranges inside the data. -/
theorem readIfd_inside {data : ByteArray} {o : ByteOrder} {kind : DirectoryKind} {offset : Nat}
    {x : Ifd} (h : readIfd data o kind offset = .ok x) (hoffset : headerSize ≤ offset) :
    x.Inside data.size := by
  obtain ⟨n, entries, -, table, -, hentries, -, htable, rfl⟩ := readIfd_eq_ok h
  obtain ⟨hbound, hsize⟩ := slice?_eq_some htable
  intro e he
  simp only [Ifd.extents, List.mem_cons, List.mem_append, List.mem_filterMap,
    Option.mem_toList, Option.map_eq_some_iff] at he
  rcases he with (rfl | ⟨entry, hentry, hr⟩) | ⟨t, ht, rfl⟩
  · refine ⟨hoffset, ?_, ?_⟩
    · simp only [hsize, Ifd.tableLength, entrySize]
      omega
    · simp only [Extent.stop, hsize]
      omega
  · obtain ⟨i, -, hi⟩ := exists_of_mem_mapM hentries hentry
    exact readEntry_extent_inside hi hr
  · exact thumbnailOf_inside ht

theorem readAt_eq_ok {data : ByteArray} {o : ByteOrder} {w : Walk} {kind : DirectoryKind}
    {offset : Nat} {visited : List Nat} {x : Ifd}
    (h : w.readAt data o kind offset = (visited, .ok x)) :
    headerSize ≤ offset ∧ readIfd data o kind offset = .ok x := by
  unfold Walk.readAt at h
  split at h
  · cases h
  · split at h
    · cases h
    · rename_i hbounds _
      simp only [Prod.mk.injEq] at h
      exact ⟨by omega, h.2⟩

/-- How reading comes to its directories: the header, the root table, the walk along the root's
links, then the thumbnail directory when the root has a next-directory offset. -/
theorem read_eq_ok {data : ByteArray} {s : Segment} (h : read data = .ok s) : ∃ rootOffset visited root w,
    readHeader data = .ok (s.byteOrder, rootOffset) ∧
    (Walk.mk [] []).readAt data s.byteOrder .root rootOffset = (visited, .ok root) ∧
    w = (root.links s.byteOrder).foldl (Walk.follow data s.byteOrder linkDepth) ⟨visited, [root]⟩ ∧
    s.ifds = (if root.next = 0 then w
      else Walk.follow data s.byteOrder linkDepth w (.thumbnail, root.next)).found := by
  obtain ⟨⟨o, rootOffset⟩, hheader, h⟩ := bind_eq_ok.1 h
  dsimp only at h
  rcases hr : Walk.readAt data o { visited := [], found := [] } .root rootOffset with
    ⟨visited, result⟩
  rw [hr] at h
  obtain ⟨root, hroot, h⟩ := bind_eq_ok.1 h
  subst hroot
  simp only [pure, Except.pure, Except.ok.injEq] at h
  subst h
  exact ⟨rootOffset, visited, root, _, hheader, hr, rfl, rfl⟩

section Invariant

/- A property of the directories found so far that survives adding a directory of a kind not
found yet, read at an offset after the header, in any byte order. -/
variable {data : ByteArray} (I : List Ifd → Prop)
  (hI : ∀ found o kind offset x, I found → kind ∉ found.map (·.kind) → headerSize ≤ offset →
    readIfd data o kind offset = .ok x → I (found ++ [x]))
include hI

/-- A walk keeps such a property of what it has found. The induction follows the levels of
links, and within a level the links in entry order. -/
theorem follow_invariant {o : ByteOrder} : ∀ (depth : Nat) (w : Walk) (link : DirectoryKind × Nat),
    I w.found → I (Walk.follow data o depth w link).found
  | 0, w, _, hw => by simpa [Walk.follow] using hw
  | depth + 1, w, (kind, offset), hw => by
    unfold Walk.follow
    split
    · exact hw
    · rename_i hfound
      split
      · rename_i visited d hread
        obtain ⟨hoffset, hd⟩ := readAt_eq_ok hread
        have hfresh : kind ∉ w.found.map (·.kind) := by simpa using hfound
        apply List.foldlRecOn (motive := fun w : Walk => I w.found)
        · exact hI w.found o kind offset d hw hfresh hoffset hd
        · intro w' hw' link _
          exact follow_invariant depth w' link hw'
      · exact hw

/-- The directories of a read segment have such a property when no directory has it. -/
theorem read_invariant (hnil : I []) {s : Segment} (h : read data = .ok s) : I s.ifds := by
  obtain ⟨rootOffset, visited, root, w, -, hr, rfl, hifds⟩ := read_eq_ok h
  obtain ⟨hoffset, hd⟩ := readAt_eq_ok hr
  have hlinks : I ((root.links s.byteOrder).foldl (Walk.follow data s.byteOrder linkDepth)
      ⟨visited, [root]⟩).found := by
    apply List.foldlRecOn (motive := fun w : Walk => I w.found)
    · simpa using hI [] s.byteOrder .root rootOffset root hnil (by simp) hoffset hd
    · intro w' hw' link _
      exact follow_invariant I hI linkDepth w' link hw'
  rw [hifds]
  split
  · exact hlinks
  · exact follow_invariant I hI linkDepth _ _ hlinks

end Invariant

/-- Every directory of a read segment has a property that every directory read at an offset after
the header has, in any byte order. -/
theorem read_found {data : ByteArray} (P : Ifd → Prop)
    (hP : ∀ o kind offset x, headerSize ≤ offset → readIfd data o kind offset = .ok x → P x)
    {s : Segment} (h : read data = .ok s) : ∀ x ∈ s.ifds, P x := by
  refine read_invariant (fun found => ∀ x ∈ found, P x) ?_ (by simp) h
  intro found o kind offset x hall _ hoffset hx y hy
  rcases List.mem_append.1 hy with hy | hy
  · exact hall y hy
  · rw [List.mem_singleton.1 hy]
    exact hP o kind offset x hoffset hx

theorem readHeader_size {data : ByteArray} {r : ByteOrder × Nat} (h : readHeader data = .ok r) :
    headerSize ≤ data.size := by
  obtain ⟨m, -, h⟩ := bind_eq_ok.1 h
  dsimp only at h
  split at h
  · rename_i o _
    obtain ⟨found, -, h⟩ := bind_eq_ok.1 h
    -- the root offset is the last word of the header, so reading it needs all eight bytes
    have hroot : ∃ root, wordAt data o 4 4 = .ok root := by
      split at h
      · simp [throw, throwThe, MonadExceptOf.throw, bind, Except.bind] at h
      · obtain ⟨root, hroot, -⟩ := bind_eq_ok.1 h
        exact ⟨root, hroot⟩
    obtain ⟨root, hroot⟩ := hroot
    obtain ⟨bytes, hbytes, -⟩ := bind_eq_ok.1 hroot
    unfold bytesAt at hbytes
    split at hbytes
    · rename_i b hslice
      have := (slice?_eq_some hslice).1
      simp only [headerSize]
      omega
    · cases hbytes
  · simp [throw, throwThe, MonadExceptOf.throw] at h

/-- Every directory of a read segment lies inside the data, which holds the header. -/
theorem read_inside {data : ByteArray} {s : Segment} (h : read data = .ok s) :
    headerSize ≤ data.size ∧ ∀ x ∈ s.ifds, x.Inside data.size := by
  obtain ⟨_, hheader, -⟩ := bind_eq_ok.1 h
  exact ⟨readHeader_size hheader, read_found _ (fun _ _ _ _ hoffset hx => readIfd_inside hx hoffset) h⟩

end Segment

namespace Gaps

/-- The analysis of an entry adds only the range of its value. -/
theorem ofEntry_subset (frozen : List Tag) (acc : List Extent) (d : Draft) (e : Entry) :
    ∀ r ∈ (ofEntry frozen (acc, d) e).1, r ∈ acc ∨ e.extent? = some r := by
  have hadd : ∀ p, e.slot = .outOfLine p →
      ∀ r ∈ acc ++ [⟨p, e.value.size⟩], r ∈ acc ∨ e.extent? = some r := by
    intro p hp r hr
    rcases List.mem_append.1 hr with hr | hr
    · exact Or.inl hr
    · exact Or.inr (by simp [Entry.extent?, hp, List.mem_singleton.1 hr])
  unfold ofEntry
  dsimp only
  split
  · rename_i p hp
    split
    · split
      · exact fun r hr => Or.inl hr
      · exact hadd p hp
    · exact hadd p hp
  · exact fun r hr => Or.inl hr

/-- The analysis of a directory adds only ranges of that directory. -/
theorem ofIfd_subset (frozen : List Tag) (acc : List Extent) (d : Draft) (x : Ifd) :
    ∀ e ∈ (ofIfd frozen (acc, d) x).1, e ∈ acc ∨ e ∈ x.extents := by
  have hentries : ∀ e ∈ (x.entries.foldl (ofEntry frozen)
      (acc ++ [⟨x.offset, x.table.size⟩], d)).1, e ∈ acc ∨ e ∈ x.extents := by
    apply List.foldlRecOn (motive := fun r : List Extent × Draft => ∀ e ∈ r.1, e ∈ acc ∨ e ∈ x.extents)
    · intro e he
      rcases List.mem_append.1 he with he | he
      · exact Or.inl he
      · exact Or.inr (by simp [List.mem_singleton.1 he, Ifd.extents])
    · rintro ⟨acc', d'⟩ hacc entry hentry e he
      rcases ofEntry_subset frozen acc' d' entry e he with he | he
      · exact hacc e he
      · refine Or.inr ?_
        simp only [Ifd.extents, List.mem_cons, List.mem_append, List.mem_filterMap]
        exact Or.inl (Or.inr ⟨entry, hentry, he⟩)
  unfold ofIfd
  dsimp only
  split
  · rename_i t ht
    intro e he
    rcases List.mem_append.1 he with he | he
    · exact hentries e he
    · refine Or.inr ?_
      simp [List.mem_singleton.1 he, Ifd.extents, ht]
  · exact hentries

/-- An analysis that succeeds read the old segment in the writer's byte order, gathered its
ranges directory by directory, and coalesced them into the runs. -/
theorem analyze_eq_ok {old : ByteArray} {o : ByteOrder} {d d' : Draft} {frozen : List Tag}
    {runs : List Extent} (h : analyze old o d frozen = .ok (runs, d')) :
    ∃ s, Segment.read old = .ok s ∧ o = s.byteOrder ∧
      Extent.coalesce (s.ifds.foldl (ofIfd frozen) ([], d)).1 = .ok runs ∧
      (s.ifds.foldl (ofIfd frozen) ([], d)).2 = d' := by
  obtain ⟨s, hs, h⟩ := bind_eq_ok.1 h
  dsimp only at h
  split at h
  · simp [throw, throwThe, MonadExceptOf.throw, bind, Except.bind] at h
  rename_i horder
  rcases hf : s.ifds.foldl (ofIfd frozen) ([], d) with ⟨extents, d₂⟩
  rw [hf] at h
  obtain ⟨runs', hruns, h⟩ := bind_eq_ok.1 h
  simp only [pure, Except.pure, Except.ok.injEq, Prod.mk.injEq] at h
  obtain ⟨rfl, rfl⟩ := h
  refine ⟨s, mapError_eq_ok.1 hs, not_not.1 horder, ?_⟩
  rw [hf]
  exact ⟨checked_eq_ok.1 hruns, rfl⟩

/-- Analysis of a segment that reads in the writer's byte order, with ranges `raw` that coalesce
into `runs`. -/
theorem analyze_of_read {old : ByteArray} {o : ByteOrder} {d d' : Draft} {frozen : List Tag}
    {raw runs : List Extent} (hruns : Extent.coalesce raw = .ok runs)
    (hs : (Segment.read old).map (fun s => (s.byteOrder, s.ifds.foldl (ofIfd frozen) ([], d))) =
      .ok (o, raw, d')) :
    analyze old o d frozen = .ok (runs, d') := by
  cases h : Segment.read old with
  | error e =>
    rw [h] at hs
    cases hs
  | ok s =>
    rw [h] at hs
    obtain ⟨rfl, hfold⟩ := Prod.mk.inj (Except.ok.inj hs)
    unfold analyze
    rw [h]
    simp only [Except.mapError, ne_eq, not_true_eq_false, if_false, hfold, hruns, checked, ok_bind]
    rfl

/-- The runs of an analysis lie after the header of the old segment and inside it, in increasing
order and separated by more than the tolerance. -/
theorem analyze_runs {old : ByteArray} {o : ByteOrder} {d d' : Draft} {frozen : List Tag}
    {runs : List Extent} (h : analyze old o d frozen = .ok (runs, d')) :
    headerSize ≤ old.size ∧ (∀ r ∈ runs, r.Inside old.size) ∧ Extent.Separated runs := by
  obtain ⟨s, hs, -, hruns, -⟩ := analyze_eq_ok h
  obtain ⟨hsize, hifds⟩ := Segment.read_inside hs
  have hext : ∀ e ∈ (s.ifds.foldl (ofIfd frozen) ([], d)).1, e.Inside old.size := by
    apply List.foldlRecOn (motive := fun r : List Extent × Draft => ∀ e ∈ r.1, e.Inside old.size)
    · simp
    · rintro ⟨acc, d₁⟩ hacc x hx e he
      rcases ofIfd_subset frozen acc d₁ x e he with he | he
      · exact hacc e he
      · exact hifds x hx e he
  exact ⟨hsize, Extent.coalesce_separated hruns hext⟩

end Gaps

end TiffLayout
