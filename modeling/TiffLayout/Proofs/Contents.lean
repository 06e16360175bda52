import TiffLayout.Proofs.ReadBack
import TiffLayout.Proofs.Walk
/-! The draft of a read segment: it exists, is well formed and has consistent fields, because the
reader reads no kind twice, sizes every value by its count and type, and drops empty thumbnails. -/
namespace TiffLayout

namespace Entry

/-- The field of an entry as read: its tag, type, count and raw value. -/
def toField (e : Entry) : Field := Field.raw e.tag e.type e.count e.value

/-- The entries of a directory that its draft keeps: those without structural tags, in entry
order, and of several with one tag only the first. -/
def firsts (es : List Entry) : List Entry :=
  (es.filter fun e => !e.tag.isStructural).eraseDupsBy fun a b => a.tag == b.tag

theorem eraseDupsBy_tag_sublist : ∀ es : List Entry,
    (es.eraseDupsBy fun a b => a.tag == b.tag).Sublist es
  | [] => by simp
  | e :: es => by
    rw [List.eraseDupsBy_cons]
    exact ((eraseDupsBy_tag_sublist _).trans List.filter_sublist).cons_cons e
termination_by es => es.length
decreasing_by
  simp only [List.length_cons]
  exact Nat.lt_succ_of_le (List.length_filter_le ..)

theorem nodup_eraseDupsBy_tag : ∀ es : List Entry,
    ((es.eraseDupsBy fun a b => a.tag == b.tag).map (·.tag)).Nodup
  | [] => by simp
  | e :: es => by
    rw [List.eraseDupsBy_cons, List.map_cons, List.nodup_cons]
    refine ⟨fun hmem => ?_, nodup_eraseDupsBy_tag _⟩
    obtain ⟨e', he', htag⟩ := List.mem_map.1 hmem
    have hkept := List.of_mem_filter ((eraseDupsBy_tag_sublist _).subset he')
    simp [htag] at hkept
termination_by es => es.length
decreasing_by
  simp only [List.length_cons]
  exact Nat.lt_succ_of_le (List.length_filter_le ..)

theorem firsts_sublist (es : List Entry) : (firsts es).Sublist es :=
  (eraseDupsBy_tag_sublist _).trans List.filter_sublist

theorem nodup_firsts (es : List Entry) : ((firsts es).map (·.tag)).Nodup :=
  nodup_eraseDupsBy_tag _

end Entry

/-- The directory that the draft of a read segment holds for a directory read: its kind, the
segment's byte order, the fields of its first entries and its thumbnail. -/
def Ifd.toDirectory (o : ByteOrder) (x : Ifd) : Directory :=
  ⟨x.kind, o, (Entry.firsts x.entries).map Entry.toField, x.thumbnail.map (·.bytes)⟩

/-- What the reader makes sure of in every directory it reads: every value holds as many bytes as
its count and type give, and a thumbnail is never empty. -/
structure Ifd.Checked (x : Ifd) : Prop where
  consistent : ∀ e ∈ x.entries, e.count * e.type.size = e.value.size
  thumbnail : ∀ t, x.thumbnail = some t → 0 < t.bytes.size

namespace Directory

/-- Adding the fields of entries to a directory adds, in entry order, the entries without
structural tags whose tag the directory does not hold yet, of several with one tag the first. -/
theorem ofEntries_eq_eraseDupsBy (y : Directory) (es : List Entry) :
    y.ofEntries es = { y with fields := y.fields ++
      ((es.filter fun e => !e.tag.isStructural && !y.fields.any (·.tag = e.tag)).eraseDupsBy
        fun a b => a.tag == b.tag).map Entry.toField } := by
  induction es generalizing y with
  | nil => simp [ofEntries]
  | cons e es ih =>
    by_cases hs : e.tag.isStructural
    · simp [ofEntries, hs, ih]
    · by_cases hold : y.fields.any (·.tag = e.tag)
      · -- the directory holds the tag: the entry is passed over
        have hadd : y.addField (Field.raw e.tag e.type e.count e.value) =
            .error (.duplicateField e.tag y.kind) := by
          unfold addField
          exact if_pos hold
        simp [ofEntries, hs, hadd, ih, hold]
      · -- a new tag: the entry's field is added, and later entries of its tag are passed over
        have hadd : y.addField (Field.raw e.tag e.type e.count e.value) =
            .ok { y with fields := y.fields ++ [e.toField] } := by
          unfold addField
          exact if_neg hold
        have hfilter : ((es.filter fun b => !b.tag.isStructural && !y.fields.any (·.tag = b.tag)).filter
            fun b => (b.tag == e.tag) = false) =
            es.filter fun b => !b.tag.isStructural && !(y.fields ++ [e.toField]).any (·.tag = b.tag) := by
          rw [List.filter_filter]
          refine List.filter_congr fun b _ => ?_
          by_cases hb : b.tag = e.tag
          · simp [hb, Entry.toField, Field.raw]
          · simp [hb, Ne.symm hb, Entry.toField, Field.raw]
        simp only [ofEntries, hs, Bool.false_eq_true, if_false, hadd, ih]
        rw [List.filter_cons_of_pos (by simpa [hs] using hold), List.eraseDupsBy_cons, hfilter]
        simp

/-- A directory read whose thumbnail is not empty gives the directory it describes. -/
theorem ofIfd_eq_toDirectory {o : ByteOrder} {x : Ifd}
    (hthumb : ∀ t, x.thumbnail = some t → 0 < t.bytes.size) : ofIfd o x = x.toDirectory o := by
  have hkeep : (x.thumbnail.map (·.bytes)).filter (0 < ·.size) = x.thumbnail.map (·.bytes) := by
    cases ht : x.thumbnail with
    | none => rfl
    | some t => simp [hthumb t ht]
  simp [ofIfd, ofEntries_eq_eraseDupsBy, setThumbnail, empty, Ifd.toDirectory, Entry.firsts, hkeep]

end Directory

namespace Segment

theorem bytesAt_length {data : ByteArray} {p n : Nat} {bs : List UInt8}
    (h : bytesAt data p n = .ok bs) : bs.length = n := by
  unfold bytesAt at h
  split at h
  · rename_i b hslice
    cases h
    simpa using (slice?_eq_some hslice).2
  · cases h

/-- An entry's value holds as many bytes as its count and type give. -/
theorem readEntry_consistent {data : ByteArray} {o : ByteOrder} {p : Nat} {e : Entry}
    (h : readEntry data o p = .ok e) : e.count * e.type.size = e.value.size := by
  obtain ⟨_, -, h⟩ := bind_eq_ok.1 h
  obtain ⟨raw, hraw, h⟩ := bind_eq_ok.1 h
  obtain ⟨length, hlength, h⟩ := bind_eq_ok.1 h
  obtain ⟨-, rfl⟩ := Width.mul_ok_iff.1 (mapError_eq_ok.1 hlength)
  have hsize := bytesAt_length hraw
  split at h
  · cases h
    simp only [entrySize] at hsize
    simp only [ByteArray.size, List.size_toArray, List.length_take, List.length_drop, hsize]
    omega
  · dsimp only at h
    split at h
    · rename_i value hslice
      split at h
      · cases h
        exact (slice?_eq_some hslice).2.symm
      · cases h
    · cases h

theorem thumbnailOf_size_pos {data : ByteArray} {o : ByteOrder} {entries : List Entry}
    {t : Thumbnail} (h : thumbnailOf data o entries = some t) : 0 < t.bytes.size :=
  (thumbnailOf_inside h).pos

theorem readIfd_checked {data : ByteArray} {o : ByteOrder} {kind : DirectoryKind} {offset : Nat}
    {x : Ifd} (h : readIfd data o kind offset = .ok x) : x.Checked := by
  obtain ⟨n, entries, -, -, -, hentries, -, -, rfl⟩ := readIfd_eq_ok h
  refine ⟨fun e he => ?_, fun t ht => thumbnailOf_size_pos ht⟩
  obtain ⟨i, -, hi⟩ := exists_of_mem_mapM hentries he
  exact readEntry_consistent hi

section Read

variable {data : ByteArray} {s : Segment}

theorem read_checked (h : read data = .ok s) : ∀ x ∈ s.ifds, x.Checked :=
  read_found _ (fun _ _ _ _ _ hx => readIfd_checked hx) h

/-- The reader reads no kind twice. -/
theorem read_kinds_nodup (h : read data = .ok s) : (s.ifds.map (·.kind)).Nodup := by
  refine read_invariant (fun found => (found.map (·.kind)).Nodup) ?_ List.nodup_nil h
  intro found o kind offset x hnd hfresh _ hx
  rw [List.map_append, List.map_singleton, readIfd_kind hx]
  exact hnd.append (List.nodup_singleton kind) (by simpa using hfresh)

end Read

end Segment

namespace Draft

/-- A draft whose directories, in layout order, are those that directories as the reader checks
them describe in the draft's byte order is well formed, and its fields are consistent. -/
theorem wellFormed_of_described {d : Draft} {xs : List Ifd}
    (hsorted : (d.dirs.map (·.kind.rank)).Pairwise (· < ·)) (hchecked : ∀ x ∈ xs, x.Checked)
    (hmem : ∀ y ∈ d.dirs, ∃ x ∈ xs, y = x.toDirectory d.byteOrder) : d.WellFormed ∧ d.Consistent := by
  refine ⟨⟨hsorted, ?_, ?_, ?_, ?_⟩, ?_⟩
  · intro y hy
    obtain ⟨x, -, rfl⟩ := hmem y hy
    rfl
  · intro y hy
    obtain ⟨x, -, rfl⟩ := hmem y hy
    simpa [Ifd.toDirectory, Function.comp_def, Entry.toField, Field.raw] using Entry.nodup_firsts x.entries
  · intro y hy f hf
    obtain ⟨x, -, rfl⟩ := hmem y hy
    obtain ⟨e, -, rfl⟩ := List.mem_map.1 hf
    rfl
  · intro y hy t ht
    obtain ⟨x, hx, rfl⟩ := hmem y hy
    obtain ⟨t', ht', rfl⟩ := Option.map_eq_some_iff.1 ht
    exact (hchecked x hx).thumbnail t' ht'
  · intro y hy f hf
    obtain ⟨x, hx, rfl⟩ := hmem y hy
    obtain ⟨e, he, rfl⟩ := List.mem_map.1 hf
    exact (hchecked x hx).consistent e ((Entry.firsts_sublist _).subset he)

/-- Every segment that reads has a draft, well formed and with consistent fields, whose
directories are, in layout order, those that the segment's directories describe. -/
theorem ofSegment_read {data : ByteArray} {s : Segment} (h : Segment.read data = .ok s) :
    ∃ d, ofSegment s = .ok d ∧ d.byteOrder = s.byteOrder ∧
      d.dirs.Perm (s.ifds.map (Ifd.toDirectory s.byteOrder)) ∧ d.WellFormed ∧ d.Consistent := by
  have hchecked := Segment.read_checked h
  have hl : s.ifds.map (Directory.ofIfd s.byteOrder) = s.ifds.map (Ifd.toDirectory s.byteOrder) :=
    List.map_congr_left fun x hx => Directory.ofIfd_eq_toDirectory (hchecked x hx).thumbnail
  have hfold : ofSegment s =
      (s.ifds.map (Ifd.toDirectory s.byteOrder)).foldlM addDirectory (empty s.byteOrder) := by
    rw [← hl, List.foldlM_map]
    rfl
  have hkinds : (s.ifds.map (Ifd.toDirectory s.byteOrder)).map (·.kind) = s.ifds.map (·.kind) := by
    simp [Function.comp_def, Ifd.toDirectory]
  -- the reader reads no kind twice, so adding the directories one by one never fails
  obtain ⟨d, hd, hbo, hperm, hsorted⟩ := foldlM_addDirectory
    (l := s.ifds.map (Ifd.toDirectory s.byteOrder)) (d := empty s.byteOrder)
    (by simp [Ifd.toDirectory, empty])
    (by rw [show (empty s.byteOrder).dirs = [] from rfl, List.nil_append, hkinds]
        exact Segment.read_kinds_nodup h)
    List.Pairwise.nil
  have hbo : d.byteOrder = s.byteOrder := hbo
  have hperm : d.dirs.Perm (s.ifds.map (Ifd.toDirectory s.byteOrder)) := hperm
  have hmem : ∀ y ∈ d.dirs, ∃ x ∈ s.ifds, y = x.toDirectory d.byteOrder := fun y hy => by
    obtain ⟨x, hx, rfl⟩ := List.mem_map.1 (hperm.subset hy)
    exact ⟨x, hx, by rw [hbo]⟩
  exact ⟨d, hfold ▸ hd, hbo, hperm, wellFormed_of_described hsorted hchecked hmem⟩

end Draft

end TiffLayout
