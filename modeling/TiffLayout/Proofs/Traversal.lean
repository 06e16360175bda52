import TiffLayout.Proofs.DirectoryBytes
import TiffLayout.Proofs.Contents
/-! The order in which the reader takes up the directories of a segment: the root's block of a
depth-first traversal along pointer entries, then at most the thumbnail directory. -/
namespace TiffLayout

/-- The kind and the offset of a directory: what a link to it names. -/
def Ifd.key (x : Ifd) : DirectoryKind × Nat := (x.kind, x.offset)

namespace Segment

/-- Directories in depth-first order of their links: a directory, then the blocks of the
directories that it links to, in the order of its link entries; a link may lead to no block. -/
inductive Preorder (o : ByteOrder) : List Ifd → Prop
  | node (x : Ifd) (bs : List (List Ifd)) (hbs : ∀ b ∈ bs, Preorder o b)
      (hlinks : (bs.filterMap fun b => b.head?.map Ifd.key).Sublist (x.links o)) :
      Preorder o (x :: bs.flatten)

/-- A link names a kind that hangs below the directory, and the single inline SHORT or LONG value
of an entry whose tag points to that kind. -/
theorem mem_links {o : ByteOrder} {x : Ifd} {k : DirectoryKind} {v : Nat} (h : (k, v) ∈ x.links o) :
    k.parent? = some x.kind ∧ ∃ e ∈ x.entries, e.tag.linkedKind? = some k ∧ e.word? o = some v := by
  obtain ⟨e, he, hlink⟩ := List.mem_filterMap.1 h
  split at hlink
  · rename_i c hc
    split at hlink
    · rename_i hparent
      obtain ⟨w, hw, hkw⟩ := Option.map_eq_some_iff.1 hlink
      simp only [Prod.mk.injEq] at hkw
      obtain ⟨rfl, rfl⟩ := hkw
      exact ⟨hparent, e, he, hc, hw⟩
    · cases hlink
  · cases hlink

/-- No kind hangs below the thumbnail directory. -/
theorem links_eq_nil {o : ByteOrder} {x : Ifd} (h : x.kind = .thumbnail) : x.links o = [] := by
  refine List.eq_nil_iff_forall_not_mem.2 fun ⟨k, v⟩ hk => ?_
  have hparent := (mem_links hk).1
  rw [h] at hparent
  cases k <;> simp [DirectoryKind.parent?] at hparent

namespace Preorder

variable {o : ByteOrder}

theorem exists_cons {l : List Ifd} (h : Preorder o l) : ∃ x rest, l = x :: rest := by
  cases h with
  | node x bs _ _ => exact ⟨x, bs.flatten, rfl⟩

/-- Every directory of a block but the first comes after a directory that links to it. -/
theorem linked {l : List Ifd} (h : Preorder o l) :
    ∀ y ∈ l.tail, ∃ x, [x, y].Sublist l ∧ y.key ∈ x.links o := by
  induction h with
  | node x bs hbs hlinks ih =>
    intro y hy
    obtain ⟨b, hb, hyb⟩ := List.mem_flatten.1 hy
    obtain ⟨z, rest, rfl⟩ := (hbs b hb).exists_cons
    rcases List.mem_cons.1 hyb with rfl | hrest
    · -- the first directory of a block is linked from the directory above the block
      refine ⟨x, (List.singleton_sublist.2 hy).cons_cons x, hlinks.subset ?_⟩
      exact List.mem_filterMap.2 ⟨_, hb, rfl⟩
    · obtain ⟨x', hsub, hlink⟩ := ih _ hb y hrest
      exact ⟨x', (hsub.trans (List.sublist_flatten_of_mem hb)).cons x, hlink⟩

/-- The block of the thumbnail directory is that directory alone. -/
theorem eq_singleton {l : List Ifd} (h : Preorder o l) {t : Ifd} (ht : l.head? = some t)
    (hk : t.kind = .thumbnail) : l = [t] := by
  cases h with
  | node x bs hbs hlinks =>
    obtain rfl : x = t := by simpa using ht
    rw [links_eq_nil hk, List.sublist_nil, List.filterMap_eq_nil_iff] at hlinks
    have hempty : ∀ b ∈ bs, b = [] := by
      intro b hb
      obtain ⟨z, rest, rfl⟩ := (hbs b hb).exists_cons
      exact absurd (hlinks _ hb) (by simp)
    rw [List.flatten_eq_nil_iff.2 hempty]

end Preorder

/-- What following a link adds to the directories found: nothing, or a depth-first block headed
by the directory that the link names. -/
def Block (o : ByteOrder) (link : DirectoryKind × Nat) (b : List Ifd) : Prop :=
  b = [] ∨ Preorder o b ∧ b.head?.map Ifd.key = some link

variable {data : ByteArray} {o : ByteOrder}

theorem readIfd_offset {kind : DirectoryKind} {offset : Nat} {x : Ifd}
    (h : readIfd data o kind offset = .ok x) : x.offset = offset := by
  obtain ⟨_, _, _, _, -, -, -, -, rfl⟩ := readIfd_eq_ok h
  rfl

/-- Following links one after the other, each adding a block for its own link, adds blocks whose
links come in the order of the links followed. -/
theorem foldl_blocks {f : Walk → DirectoryKind × Nat → Walk}
    (hf : ∀ w link, ∃ b, (f w link).found = w.found ++ b ∧ Block o link b) :
    ∀ (links : List (DirectoryKind × Nat)) (w : Walk), ∃ bs : List (List Ifd),
      (links.foldl f w).found = w.found ++ bs.flatten ∧ (∀ b ∈ bs, Preorder o b) ∧
      (bs.filterMap fun b => b.head?.map Ifd.key).Sublist links
  | [], w => ⟨[], by simp, by simp, by simp⟩
  | link :: links, w => by
    obtain ⟨b, hb, hblock⟩ := hf w link
    obtain ⟨bs, hbs, hpre, hsub⟩ := foldl_blocks hf links (f w link)
    rw [List.foldl_cons, hbs, hb]
    rcases hblock with rfl | ⟨hpb, hhead⟩
    · exact ⟨bs, by rw [List.append_nil], hpre, hsub.cons link⟩
    · refine ⟨b :: bs, by simp, ?_, ?_⟩
      · intro c hc
        rcases List.mem_cons.1 hc with rfl | hc
        · exact hpb
        · exact hpre c hc
      · rw [List.filterMap_cons_some (f := fun b : List Ifd => b.head?.map Ifd.key) hhead]
        exact hsub.cons_cons link

/-- Following a link adds nothing, or the depth-first block of the directory it names. The
induction follows the levels of links. -/
theorem follow_block : ∀ (depth : Nat) (w : Walk) (link : DirectoryKind × Nat),
    ∃ b, (Walk.follow data o depth w link).found = w.found ++ b ∧ Block o link b
  | 0, w, _ => ⟨[], by simp [Walk.follow], .inl rfl⟩
  | depth + 1, w, (kind, offset) => by
    by_cases hk : kind ∈ w.kinds
    · exact ⟨[], by rw [follow_of_mem hk, List.append_nil], .inl rfl⟩
    rcases hr : w.readAt data o kind offset with ⟨visited, _ | x⟩
    · -- a table that cannot be read adds nothing
      have hany : w.found.any (·.kind = kind) = false := by simpa [Walk.kinds] using hk
      exact ⟨[], by simp [Walk.follow, hany, hr], .inl rfl⟩
    · obtain ⟨-, hx⟩ := readAt_eq_ok hr
      obtain ⟨bs, hbs, hpre, hsub⟩ :=
        foldl_blocks (follow_block depth) (x.links o) ⟨visited, w.found ++ [x]⟩
      refine ⟨x :: bs.flatten, by rw [follow_of_read hk hr, hbs]; simp, .inr ⟨.node x bs hpre hsub, ?_⟩⟩
      simp [Ifd.key, readIfd_kind hx, readIfd_offset hx]

/-- What a walk keeps of the directories it has found: each was read in byte order `o` at an
offset after the header that the walk has claimed, and no two at one offset. -/
structure Walk.Claimed (data : ByteArray) (o : ByteOrder) (w : Walk) : Prop where
  nodup : (w.found.map (·.offset)).Nodup
  read : ∀ x ∈ w.found, x.offset ∈ w.visited ∧ headerSize ≤ x.offset ∧
    readIfd data o x.kind x.offset = .ok x

theorem readAt_ok_claimed {w : Walk} (hw : w.Claimed data o) {kind : DirectoryKind}
    {offset : Nat} {visited : List Nat} {x : Ifd} (h : w.readAt data o kind offset = (visited, .ok x)) :
    Walk.Claimed data o ⟨visited, w.found ++ [x]⟩ := by
  unfold Walk.readAt at h
  split at h
  · cases h
  split at h
  · cases h
  rename_i hbounds hfresh
  simp only [Prod.mk.injEq] at h
  obtain ⟨rfl, hx⟩ := h
  have hkind := readIfd_kind hx
  have hoffset := readIfd_offset hx
  -- the new offset was not claimed, so no directory found so far sits there
  have hnew : ∀ y ∈ w.found, y.offset ≠ x.offset := by
    intro y hy hyx
    exact hfresh (hoffset ▸ hyx ▸ (hw.read y hy).1)
  refine ⟨by simpa [List.nodup_append] using ⟨hw.nodup, hnew⟩, fun y hy => ?_⟩
  rcases List.mem_append.1 hy with hy | hy
  · obtain ⟨hv, hrest⟩ := hw.read y hy
    exact ⟨List.mem_cons_of_mem _ hv, hrest⟩
  · obtain rfl := List.mem_singleton.1 hy
    rw [hkind, hoffset]
    exact ⟨List.mem_cons_self, by omega, hx⟩

theorem readAt_error_claimed {w : Walk} (hw : w.Claimed data o) {kind : DirectoryKind}
    {offset : Nat} {visited : List Nat} {e : ReadError}
    (h : w.readAt data o kind offset = (visited, .error e)) :
    Walk.Claimed data o ⟨visited, w.found⟩ := by
  have hvisited : ∀ v ∈ w.visited, v ∈ visited := by
    unfold Walk.readAt at h
    split at h
    · simp only [Prod.mk.injEq] at h
      exact fun v hv => h.1 ▸ hv
    split at h
    · simp only [Prod.mk.injEq] at h
      exact fun v hv => h.1 ▸ hv
    · simp only [Prod.mk.injEq] at h
      exact fun v hv => h.1 ▸ List.mem_cons_of_mem _ hv
  refine ⟨hw.nodup, fun y hy => ?_⟩
  obtain ⟨hv, hrest⟩ := hw.read y hy
  exact ⟨hvisited _ hv, hrest⟩

/-- A walk keeps what it has claimed. The induction follows the levels of links, and within a
level the links in entry order. -/
theorem follow_claimed : ∀ (depth : Nat) (w : Walk) (link : DirectoryKind × Nat),
    w.Claimed data o → (Walk.follow data o depth w link).Claimed data o
  | 0, w, _, hw => by simpa [Walk.follow] using hw
  | depth + 1, w, (kind, offset), hw => by
    unfold Walk.follow
    split
    · exact hw
    · split
      · rename_i visited x hr
        apply List.foldlRecOn (motive := fun w : Walk => w.Claimed data o)
        · exact readAt_ok_claimed hw hr
        · intro w' hw' link _
          exact follow_claimed depth w' link hw'
      · rename_i visited e hr
        exact readAt_error_claimed hw hr

section Read

variable {s : Segment}

/-- The root directory at the header's offset, its depth-first block, then at most the thumbnail
directory at the root's next-directory offset. -/
theorem read_preorder (h : read data = .ok s) :
    ∃ (rootOffset : Nat) (root : Ifd) (bs : List (List Ifd)) (th : List Ifd),
    readHeader data = .ok (s.byteOrder, rootOffset) ∧ root.kind = .root ∧ root.offset = rootOffset ∧
    s.ifds = root :: bs.flatten ++ th ∧ Preorder s.byteOrder (root :: bs.flatten) ∧
    (th = [] ∨ ∃ t, th = [t] ∧ t.kind = .thumbnail ∧ t.offset = root.next) := by
  obtain ⟨rootOffset, visited, root, w, hheader, hr, rfl, hifds⟩ := read_eq_ok h
  obtain ⟨-, hroot⟩ := readAt_eq_ok hr
  obtain ⟨bs, hbs, hpre, hsub⟩ :=
    foldl_blocks (follow_block linkDepth) (root.links s.byteOrder) ⟨visited, [root]⟩
  refine ⟨rootOffset, root, bs, ?_⟩
  have hhead : root.kind = .root ∧ root.offset = rootOffset :=
    ⟨readIfd_kind hroot, readIfd_offset hroot⟩
  split at hifds
  · exact ⟨[], hheader, hhead.1, hhead.2, by rw [hifds, hbs]; simp, .node root bs hpre hsub, .inl rfl⟩
  · -- the thumbnail directory chained from the root ends the walk
    obtain ⟨b, hb, hblock⟩ := @follow_block data s.byteOrder linkDepth
      ((root.links s.byteOrder).foldl (Walk.follow data s.byteOrder linkDepth) ⟨visited, [root]⟩)
      (.thumbnail, root.next)
    refine ⟨b, hheader, hhead.1, hhead.2, by rw [hifds, hb, hbs]; simp, .node root bs hpre hsub, ?_⟩
    rcases hblock with rfl | ⟨hpb, hkey⟩
    · exact .inl rfl
    · obtain ⟨t, rest, rfl⟩ := hpb.exists_cons
      simp only [List.head?_cons, Option.map_some, Option.some.injEq, Ifd.key, Prod.mk.injEq] at hkey
      exact .inr ⟨t, hpb.eq_singleton rfl hkey.1, hkey⟩

/-- Every directory of a read segment was read at an offset after the header that no other
directory has, in the segment's byte order. -/
theorem read_claimed (h : read data = .ok s) : ∃ w : Walk, w.found = s.ifds ∧ w.Claimed data s.byteOrder := by
  obtain ⟨rootOffset, visited, root, w, -, hr, rfl, hifds⟩ := read_eq_ok h
  have hstart : (Walk.mk [] []).Claimed data s.byteOrder := ⟨List.nodup_nil, by simp⟩
  have hw : Walk.Claimed data s.byteOrder
      ((root.links s.byteOrder).foldl (Walk.follow data s.byteOrder linkDepth) ⟨visited, [root]⟩) := by
    apply List.foldlRecOn (motive := fun w : Walk => w.Claimed data s.byteOrder)
    · exact readAt_ok_claimed hstart hr
    · intro w' hw' link _
      exact follow_claimed linkDepth w' link hw'
  split at hifds
  · exact ⟨_, hifds.symm, hw⟩
  · exact ⟨_, hifds.symm, follow_claimed linkDepth _ _ hw⟩

end Read

/-- What a read segment is, as the reader takes up its directories. -/
structure Structured (data : ByteArray) (s : Segment) : Prop where
  /-- The root directory comes first, at the offset that the header gives; the directories linked
  from it follow depth first, in entry order; the thumbnail directory, if read, comes last. -/
  order : ∃ (rootOffset : Nat) (root : Ifd) (bs : List (List Ifd)) (th : List Ifd),
    readHeader data = .ok (s.byteOrder, rootOffset) ∧ root.kind = .root ∧ root.offset = rootOffset ∧
    s.ifds = root :: bs.flatten ++ th ∧ Preorder s.byteOrder (root :: bs.flatten) ∧
    (th = [] ∨ ∃ t, th = [t] ∧ t.kind = .thumbnail ∧ t.offset = root.next)
  /-- Every other directory comes after its parent, at the offset that an inline pointer entry of
  the parent holds, or for the thumbnail directory the root's next-directory offset. -/
  parent : ∀ y ∈ s.ifds.tail, ∃ x, [x, y].Sublist s.ifds ∧ y.kind.parent? = some x.kind ∧
    ((∃ e ∈ x.entries, e.tag.linkedKind? = some y.kind ∧ e.word? s.byteOrder = some y.offset) ∨
      y.kind = .thumbnail ∧ y.offset = x.next)
  /-- At most one directory of each kind. -/
  kinds : (s.ifds.map (·.kind)).Nodup
  /-- No two directories at one offset. -/
  offsets : (s.ifds.map (·.offset)).Nodup
  /-- Each directory is what its table gives. -/
  directories : ∀ x ∈ s.ifds, x.ReadFrom data s.byteOrder

/-- Every directory of a read segment but the root comes after its parent, which links to it. -/
theorem Structured.parent_of_order {s : Segment} {root : Ifd} {bs : List (List Ifd)} {th : List Ifd}
    (hifds : s.ifds = root :: bs.flatten ++ th) (hpre : Preorder s.byteOrder (root :: bs.flatten))
    (hth : th = [] ∨ ∃ t, th = [t] ∧ t.kind = .thumbnail ∧ t.offset = root.next)
    (hroot : root.kind = .root) :
    ∀ y ∈ s.ifds.tail, ∃ x, [x, y].Sublist s.ifds ∧ y.kind.parent? = some x.kind ∧
      ((∃ e ∈ x.entries, e.tag.linkedKind? = some y.kind ∧ e.word? s.byteOrder = some y.offset) ∨
        y.kind = .thumbnail ∧ y.offset = x.next) := by
  intro y hy
  rw [hifds, List.cons_append, List.tail_cons] at hy
  rcases List.mem_append.1 hy with hy | hy
  · obtain ⟨x, hsub, hlink⟩ := hpre.linked y hy
    obtain ⟨hparent, hentry⟩ := mem_links hlink
    refine ⟨x, ?_, hparent, .inl hentry⟩
    rw [hifds]
    exact hsub.trans (List.sublist_append_left _ _)
  · rcases hth with rfl | ⟨t, rfl, htk, hto⟩
    · cases hy
    obtain rfl := List.mem_singleton.1 hy
    refine ⟨root, ?_, by rw [htk, hroot]; rfl, .inr ⟨htk, hto⟩⟩
    rw [hifds]
    exact (List.singleton_sublist.2 (List.mem_append_right _ (List.mem_singleton_self y))).cons_cons root

/-- Every segment that reads is structured: the root first at the header's offset, the linked
directories depth first in entry order, the thumbnail directory last, each after its parent at an
offset the parent gives; no kind and no offset twice; each directory what its table gives. -/
theorem read_structured {data : ByteArray} {s : Segment} (h : read data = .ok s) :
    Structured data s := by
  obtain ⟨rootOffset, root, bs, th, hheader, hroot, hoffset, hifds, hpre, hth⟩ := read_preorder h
  obtain ⟨w, hw, hclaimed⟩ := read_claimed h
  refine ⟨⟨rootOffset, root, bs, th, hheader, hroot, hoffset, hifds, hpre, hth⟩,
    Structured.parent_of_order hifds hpre hth hroot, read_kinds_nodup h, hw ▸ hclaimed.nodup,
    fun x hx => ?_⟩
  obtain ⟨-, hheader', hread⟩ := hclaimed.read x (hw ▸ hx)
  exact readIfd_readFrom hread hheader'

/-- A root directory with an Exif pointer entry, and the empty Exif directory it links to. -/
theorem read_structured_exif :
    ∃ s, read ⟨#[0x49, 0x49, 0x2A, 0, 8, 0, 0, 0, 1, 0, 0x69, 0x87, 4, 0, 1, 0, 0, 0, 26, 0, 0, 0,
      0, 0, 0, 0, 0, 0, 0, 0, 0, 0]⟩ = .ok s ∧ s.ifds.length = 2 ∧
      Structured ⟨#[0x49, 0x49, 0x2A, 0, 8, 0, 0, 0, 1, 0, 0x69, 0x87, 4, 0, 1, 0, 0, 0, 26, 0, 0, 0,
        0, 0, 0, 0, 0, 0, 0, 0, 0, 0]⟩ s := by
  have hread : read ⟨#[0x49, 0x49, 0x2A, 0, 8, 0, 0, 0, 1, 0, 0x69, 0x87, 4, 0, 1, 0, 0, 0, 26, 0, 0,
      0, 0, 0, 0, 0, 0, 0, 0, 0, 0, 0]⟩ =
      .ok ⟨.little, [⟨.root, 8, [⟨⟨0x8769⟩, ⟨4⟩, 1, 10, .inline [26, 0, 0, 0], ⟨#[26, 0, 0, 0]⟩⟩], 0,
        none, ⟨#[1, 0, 0x69, 0x87, 4, 0, 1, 0, 0, 0, 26, 0, 0, 0, 0, 0, 0, 0]⟩⟩,
        ⟨.exif, 26, [], 0, none, ⟨#[0, 0, 0, 0, 0, 0]⟩⟩]⟩ := by
    rfl
  exact ⟨_, hread, rfl, read_structured hread⟩

end Segment

end TiffLayout
