import TiffLayout.Segment.Read
import TiffLayout.Proofs.Except
import Mathlib.Data.Fintype.Basic
/-! Reading finds every directory of a well-linked segment, each once. When each present kind has
a table that reads back at an offset of its own after the header, and each table links to exactly
the present kinds that hang below it by a pointer field, the depth-first walk of the reader finds
them all, and the thumbnail directory through the root's next offset. -/
namespace TiffLayout

namespace DirectoryKind

instance : Fintype DirectoryKind where
  elems := {root, exif, gps, interop, thumbnail}
  complete k := by cases k <;> decide

/-- `c` hangs below `k` by a pointer field of `k`'s directory. -/
def PointerChild (c k : DirectoryKind) : Prop := c.parent? = some k ∧ c.pointerTag?.isSome = true

instance (c k : DirectoryKind) : Decidable (PointerChild c k) := inferInstanceAs (Decidable (_ ∧ _))

/-- The kinds reached from `k` through pointer fields, `k` first. -/
def reach : DirectoryKind → List DirectoryKind
  | root => [root, exif, interop, gps]
  | exif => [exif, interop]
  | gps => [gps]
  | interop => [interop]
  | thumbnail => [thumbnail]

/-- Levels of pointer fields below a kind. -/
def height : DirectoryKind → Nat
  | root => 2
  | exif => 1
  | _ => 0

theorem self_mem_reach : ∀ k : DirectoryKind, k ∈ k.reach := by decide

theorem reach_child : ∀ {c k : DirectoryKind}, PointerChild c k →
    (∀ x ∈ c.reach, x ∈ k.reach) ∧ k ∉ c.reach ∧ c.height < k.height := by
  decide

theorem reach_disjoint : ∀ {c₁ c₂ k : DirectoryKind}, PointerChild c₁ k → PointerChild c₂ k →
    c₁ ≠ c₂ → ∀ x ∈ c₁.reach, x ∉ c₂.reach := by
  decide

/-- A kind reached from `k`, other than `k`, is reached from a child of `k` that is the kind
itself or its parent. -/
theorem reach_step : ∀ {c k : DirectoryKind}, c ∈ k.reach → c ≠ k →
    ∃ c', PointerChild c' k ∧ c ∈ c'.reach ∧ (c' = c ∨ c.parent? = some c') := by
  decide

theorem mem_reach_root : ∀ k : DirectoryKind, k ∈ root.reach ∨ k = thumbnail := by decide

theorem height_lt_linkDepth : ∀ k : DirectoryKind, k.height < Segment.linkDepth := by decide

end DirectoryKind

namespace Segment

open DirectoryKind

/-- A segment whose directories can all be read: for each present kind, its table reads back at
an offset of its own, after the header and inside the data, and links to exactly the present
kinds that hang below it by a pointer field; the parent of a present kind is present. -/
structure Readable (data : ByteArray) (o : ByteOrder) (ks : List DirectoryKind)
    (ifd : DirectoryKind → Ifd) : Prop where
  read : ∀ k ∈ ks, readIfd data o k (ifd k).offset = .ok (ifd k)
  inside : ∀ k ∈ ks, headerSize ≤ (ifd k).offset ∧ (ifd k).offset < data.size
  distinct : ∀ k ∈ ks, ∀ k' ∈ ks, (ifd k).offset = (ifd k').offset → k = k'
  links : ∀ k ∈ ks, ∀ c v, (c, v) ∈ (ifd k).links o ↔ c ∈ ks ∧ PointerChild c k ∧ v = (ifd c).offset
  parent : ∀ k ∈ ks, ∀ p, k.parent? = some p → p ∈ ks

theorem readIfd_kind {data : ByteArray} {o : ByteOrder} {k : DirectoryKind} {t : Nat} {x : Ifd}
    (h : readIfd data o k t = .ok x) : x.kind = k := by
  obtain ⟨n, -, h⟩ := bind_eq_ok.1 h
  obtain ⟨entries, -, h⟩ := bind_eq_ok.1 h
  obtain ⟨next, -, h⟩ := bind_eq_ok.1 h
  obtain ⟨length, -, h⟩ := bind_eq_ok.1 h
  split at h
  · simp only [pure, Except.pure, Except.ok.injEq] at h
    rw [← h]
  · cases h

/-- The kinds that a walk has read. -/
def Walk.kinds (w : Walk) : List DirectoryKind := w.found.map (·.kind)

section Walk

variable {data : ByteArray} {o : ByteOrder} {ks : List DirectoryKind} {ifd : DirectoryKind → Ifd}

/-- A walk that has read only tables of present kinds, each kind once, and has claimed only
offsets of tables it read. -/
structure Walk.Sound (ks : List DirectoryKind) (ifd : DirectoryKind → Ifd) (w : Walk) : Prop where
  found : ∀ x ∈ w.found, ∃ k ∈ ks, x = ifd k
  nodup : w.kinds.Nodup
  visited : ∀ v ∈ w.visited, ∃ x ∈ w.found, v = x.offset

/-- Nothing reached from `k` is read yet. -/
def Walk.Untouched (w : Walk) (k : DirectoryKind) : Prop := ∀ c ∈ k.reach, c ∉ w.kinds

/-- Every present kind reached from `k` is read. -/
def Walk.Settled (ks : List DirectoryKind) (w : Walk) (k : DirectoryKind) : Prop :=
  ∀ c ∈ k.reach, c ∈ ks → c ∈ w.kinds

theorem Walk.Settled.append {w : Walk} {k : DirectoryKind} (h : w.Settled ks k) (visited : List Nat)
    (new : List Ifd) : Walk.Settled ks ⟨visited, w.found ++ new⟩ k := by
  intro c hc hks
  have := h c hc hks
  simp only [Walk.kinds, List.map_append, List.mem_append] at this ⊢
  exact Or.inl this

/-- What following the link to a present kind `k` does within depth `n`: from a sound walk in
which the kinds reached from `k` are all unread or all read, it reads only kinds reached from `k`
and leaves all of them read. -/
def FollowSpec (data : ByteArray) (o : ByteOrder) (ks : List DirectoryKind) (ifd : DirectoryKind → Ifd)
    (n : Nat) (k : DirectoryKind) : Prop :=
  ∀ w : Walk, w.Sound ks ifd → w.Untouched k ∨ w.Settled ks k →
    (Walk.follow data o n w (k, (ifd k).offset)).Sound ks ifd ∧
    (∃ new, (Walk.follow data o n w (k, (ifd k).offset)).found = w.found ++ new ∧
      ∀ x ∈ new, x.kind ∈ k.reach) ∧
    (Walk.follow data o n w (k, (ifd k).offset)).Settled ks k

theorem Readable.kind (hr : Readable data o ks ifd) {k : DirectoryKind} (hk : k ∈ ks) :
    (ifd k).kind = k :=
  readIfd_kind (hr.read k hk)

/-- A present kind that is not read yet is claimed and read. -/
theorem Readable.readAt_fresh (hr : Readable data o ks ifd) {w : Walk} (hw : w.Sound ks ifd)
    {k : DirectoryKind} (hk : k ∈ ks) (hfresh : k ∉ w.kinds) :
    w.readAt data o k (ifd k).offset = ((ifd k).offset :: w.visited, .ok (ifd k)) := by
  have hclaimed : (ifd k).offset ∉ w.visited := by
    intro hv
    obtain ⟨x, hx, hxv⟩ := hw.visited _ hv
    obtain ⟨k', hk', rfl⟩ := hw.found x hx
    have hkk' := hr.distinct k hk k' hk' hxv
    subst hkk'
    exact hfresh (List.mem_map.2 ⟨ifd k, hx, hr.kind hk⟩)
  have hin := hr.inside k hk
  unfold Walk.readAt
  rw [if_neg (by omega), if_neg hclaimed, hr.read k hk]

/-- Reading a fresh present kind keeps a walk sound. -/
theorem Readable.sound_read (hr : Readable data o ks ifd) {w : Walk} (hw : w.Sound ks ifd)
    {k : DirectoryKind} (hk : k ∈ ks) (hfresh : k ∉ w.kinds) :
    Walk.Sound ks ifd ⟨(ifd k).offset :: w.visited, w.found ++ [ifd k]⟩ where
  found x hx := by
    rcases List.mem_append.1 hx with hx | hx
    · exact hw.found x hx
    · exact ⟨k, hk, List.mem_singleton.1 hx⟩
  nodup := by
    simp only [Walk.kinds, List.map_append, List.map_singleton, hr.kind hk]
    exact hw.nodup.append (List.nodup_singleton k) (by simpa [Walk.kinds] using hfresh)
  visited v hv := by
    rcases List.mem_cons.1 hv with rfl | hv
    · exact ⟨ifd k, by simp, rfl⟩
    · obtain ⟨x, hx, rfl⟩ := hw.visited v hv
      exact ⟨x, List.mem_append_left _ hx, rfl⟩

theorem follow_of_read {w : Walk} {k : DirectoryKind} {v n : Nat} {visited : List Nat} {x : Ifd}
    (hfresh : k ∉ w.kinds) (hread : w.readAt data o k v = (visited, .ok x)) :
    Walk.follow data o (n + 1) w (k, v) =
      (x.links o).foldl (Walk.follow data o n) ⟨visited, w.found ++ [x]⟩ := by
  have hany : w.found.any (·.kind = k) = false := by
    simpa [Walk.kinds] using hfresh
  simp only [Walk.follow, hany, Bool.false_eq_true, if_false, hread]

theorem follow_of_mem {w : Walk} {k : DirectoryKind} {v n : Nat} (hk : k ∈ w.kinds) :
    Walk.follow data o (n + 1) w (k, v) = w := by
  have hany : w.found.any (·.kind = k) = true := by
    simpa [Walk.kinds] using hk
  simp only [Walk.follow, hany, if_true]

/-- A read kind whose present children are settled is settled: every kind reached from it is
itself, or is reached from a child that is present, its parent being present. -/
theorem Readable.settled (hr : Readable data o ks ifd) {w : Walk} {k : DirectoryKind}
    (hk : k ∈ w.kinds) (hchildren : ∀ c ∈ ks, PointerChild c k → w.Settled ks c) : w.Settled ks k := by
  intro c hc hcks
  by_cases hck : c = k
  · exact hck ▸ hk
  obtain ⟨c', hchild, hcc', hc'⟩ := reach_step hc hck
  have hc'ks : c' ∈ ks := by
    rcases hc' with rfl | hparent
    · exact hcks
    · exact hr.parent c hcks c' hparent
  exact hchildren c' hc'ks hchild c hcc' hcks

/-- Following the links of a table to children of `k`, one after the other: each child's kinds
stay all unread or all read, what is read is reached from a child, and every child followed ends
settled. -/
theorem Readable.foldl_follow (hr : Readable data o ks ifd) {n : Nat} {k : DirectoryKind}
    (hspec : ∀ c ∈ ks, PointerChild c k → FollowSpec data o ks ifd n c) :
    ∀ (links : List (DirectoryKind × Nat)),
      (∀ l ∈ links, l.1 ∈ ks ∧ PointerChild l.1 k ∧ l.2 = (ifd l.1).offset) →
      ∀ w : Walk, w.Sound ks ifd → (∀ c, PointerChild c k → w.Untouched c ∨ w.Settled ks c) →
        (links.foldl (Walk.follow data o n) w).Sound ks ifd ∧
        (∃ new, (links.foldl (Walk.follow data o n) w).found = w.found ++ new ∧
          ∀ x ∈ new, x.kind ∈ k.reach ∧ x.kind ≠ k) ∧
        (∀ c, PointerChild c k →
          (links.foldl (Walk.follow data o n) w).Untouched c ∨
            (links.foldl (Walk.follow data o n) w).Settled ks c) ∧
        ∀ l ∈ links, (links.foldl (Walk.follow data o n) w).Settled ks l.1
  | [], _, w, hw, hchildren => ⟨hw, ⟨[], by simp⟩, hchildren, by simp⟩
  | (c, v) :: links, hlinks, w, hw, hchildren => by
    obtain ⟨hc, hchild, hv⟩ := hlinks (c, v) List.mem_cons_self
    simp only at hc hchild hv
    subst hv
    obtain ⟨hw₁, ⟨new₁, hfound₁, hnew₁⟩, hsettled₁⟩ := hspec c hc hchild w hw (hchildren c hchild)
    set w₁ := Walk.follow data o n w (c, (ifd c).offset)
    -- following `c` reads only kinds reached from `c`, which no other child reaches
    have hchildren₁ : ∀ c', PointerChild c' k → w₁.Untouched c' ∨ w₁.Settled ks c' := by
      intro c' hchild'
      by_cases hcc' : c' = c
      · exact Or.inr (hcc' ▸ hsettled₁)
      rcases hchildren c' hchild' with hun | hset
      · refine Or.inl fun x hx hxw => ?_
        rw [Walk.kinds, hfound₁, List.map_append, List.mem_append] at hxw
        rcases hxw with hxw | hxw
        · exact hun x hx hxw
        · obtain ⟨y, hy, rfl⟩ := List.mem_map.1 hxw
          exact reach_disjoint hchild hchild' (Ne.symm hcc') _ (hnew₁ y hy) hx
      · refine Or.inr fun x hx hxks => ?_
        have := hset x hx hxks
        rw [Walk.kinds, hfound₁, List.map_append]
        exact List.mem_append_left _ this
    obtain ⟨hw', ⟨new₂, hfound₂, hnew₂⟩, hchildren', hsettled'⟩ :=
      hr.foldl_follow hspec links (fun l hl => hlinks l (List.mem_cons_of_mem _ hl)) w₁ hw₁ hchildren₁
    simp only [List.foldl_cons]
    refine ⟨hw', ⟨new₁ ++ new₂, by rw [hfound₂, hfound₁, List.append_assoc], fun x hx => ?_⟩,
      hchildren', fun l hl => ?_⟩
    · rcases List.mem_append.1 hx with hx | hx
      · have hreach := (reach_child hchild)
        exact ⟨hreach.1 _ (hnew₁ x hx), fun e => hreach.2.1 (e ▸ hnew₁ x hx)⟩
      · exact hnew₂ x hx
    · rcases List.mem_cons.1 hl with rfl | hl
      · intro x hx hxks
        rw [Walk.kinds, hfound₂, List.map_append]
        exact List.mem_append_left _ (hsettled₁ x hx hxks)
      · exact hsettled' l hl

/-- Following the link to a present kind within a depth above its height settles it. -/
theorem Readable.followSpec (hr : Readable data o ks ifd) :
    ∀ n, ∀ k ∈ ks, k.height < n → FollowSpec data o ks ifd n k
  | 0, _, _, hn => absurd hn (Nat.not_lt_zero _)
  | n + 1, k, hk, hn => by
    intro w hw hpre
    by_cases hkw : k ∈ w.kinds
    · -- a kind already read is passed over; its kinds were all read
      rw [follow_of_mem hkw]
      refine ⟨hw, ⟨[], by simp, by simp⟩, ?_⟩
      rcases hpre with hun | hset
      · exact absurd hkw (hun k (self_mem_reach k))
      · exact hset
    rw [follow_of_read hkw (hr.readAt_fresh hw hk hkw)]
    have hun : w.Untouched k := by
      rcases hpre with hun | hset
      · exact hun
      · exact absurd (hset k (self_mem_reach k) hk) hkw
    have hw₁ := hr.sound_read hw hk hkw
    have hchildren : ∀ c, PointerChild c k →
        Walk.Untouched ⟨(ifd k).offset :: w.visited, w.found ++ [ifd k]⟩ c ∨
          Walk.Settled ks ⟨(ifd k).offset :: w.visited, w.found ++ [ifd k]⟩ c := by
      intro c hchild
      refine Or.inl fun x hx hxw => ?_
      simp only [Walk.kinds, List.map_append, List.map_singleton, hr.kind hk, List.mem_append,
        List.mem_singleton] at hxw
      rcases hxw with hxw | rfl
      · exact hun x ((reach_child hchild).1 x hx) hxw
      · exact (reach_child hchild).2.1 hx
    have hlinks : ∀ l ∈ (ifd k).links o, l.1 ∈ ks ∧ PointerChild l.1 k ∧ l.2 = (ifd l.1).offset :=
      fun l hl => (hr.links k hk l.1 l.2).1 hl
    have hspec : ∀ c ∈ ks, PointerChild c k → FollowSpec data o ks ifd n c :=
      fun c hc hchild => hr.followSpec n c hc (by have := (reach_child hchild).2.2; omega)
    obtain ⟨hw', ⟨new, hfound, hnew⟩, -, hsettled⟩ :=
      hr.foldl_follow hspec ((ifd k).links o) hlinks _ hw₁ hchildren
    refine ⟨hw', ⟨ifd k :: new, by rw [hfound]; simp, fun x hx => ?_⟩, ?_⟩
    · rcases List.mem_cons.1 hx with rfl | hx
      · rw [hr.kind hk]
        exact self_mem_reach k
      · exact (hnew x hx).1
    · refine hr.settled ?_ fun c hc hchild => hsettled (c, (ifd c).offset)
        ((hr.links k hk c _).2 ⟨hc, hchild, rfl⟩)
      rw [Walk.kinds, hfound]
      simp [hr.kind hk]

theorem Readable.mem_found (hr : Readable data o ks ifd) {w : Walk} (hw : w.Sound ks ifd)
    {k : DirectoryKind} (hkw : k ∈ w.kinds) : ifd k ∈ w.found := by
  obtain ⟨x, hx, hxk⟩ := List.mem_map.1 hkw
  obtain ⟨k', hk', rfl⟩ := hw.found x hx
  rw [hr.kind hk'] at hxk
  exact hxk ▸ hx

/-- Reading a segment whose header names the root table and whose present kinds are readable
finds the table of every present kind and nothing else, each kind once; the thumbnail table is
the one the root's next offset names. -/
theorem Readable.read_eq (hr : Readable data o ks ifd) (hroot : DirectoryKind.root ∈ ks)
    (hheader : readHeader data = .ok (o, (ifd .root).offset))
    (hnext : (ifd .root).next = if DirectoryKind.thumbnail ∈ ks then (ifd .thumbnail).offset else 0) :
    ∃ s, Segment.read data = .ok s ∧ s.byteOrder = o ∧ (s.ifds.map (·.kind)).Nodup ∧
      (∀ x ∈ s.ifds, ∃ k ∈ ks, x = ifd k) ∧ ∀ k ∈ ks, ifd k ∈ s.ifds := by
  have h₀ : Walk.Sound ks ifd ⟨[], []⟩ := ⟨by simp, by simp [Walk.kinds], by simp⟩
  have hfresh₀ : DirectoryKind.root ∉ Walk.kinds ⟨[], []⟩ := by simp [Walk.kinds]
  have hw₁ := hr.sound_read h₀ hroot hfresh₀
  simp only [List.nil_append] at hw₁
  set w₁ : Walk := ⟨[(ifd .root).offset], [ifd .root]⟩
  have hchildren : ∀ c, PointerChild c .root → w₁.Untouched c ∨ w₁.Settled ks c := by
    intro c hchild
    refine Or.inl fun x hx hxw => ?_
    simp only [w₁, Walk.kinds, List.map_singleton, hr.kind hroot, List.mem_singleton] at hxw
    exact (reach_child hchild).2.1 (hxw ▸ hx)
  have hlinks : ∀ l ∈ (ifd .root).links o,
      l.1 ∈ ks ∧ PointerChild l.1 .root ∧ l.2 = (ifd l.1).offset :=
    fun l hl => (hr.links _ hroot l.1 l.2).1 hl
  obtain ⟨hw₂, ⟨new, hfound, hnew⟩, -, hsettled⟩ := hr.foldl_follow (n := linkDepth)
    (fun c hc _ => hr.followSpec linkDepth c hc (height_lt_linkDepth c)) _ hlinks w₁ hw₁ hchildren
  set w₂ := ((ifd .root).links o).foldl (Walk.follow data o linkDepth) w₁
  have hroot₂ : w₂.Settled ks .root := by
    refine hr.settled ?_ fun c hc hchild => hsettled (c, (ifd c).offset)
      ((hr.links _ hroot c _).2 ⟨hc, hchild, rfl⟩)
    rw [Walk.kinds, hfound]
    simp [w₁, hr.kind hroot]
  set w₃ := if (ifd .root).next = 0 then w₂
    else w₂.follow data o linkDepth (.thumbnail, (ifd .root).next)
  have hw₃ : w₃.Sound ks ifd ∧ ∀ k ∈ ks, k ∈ w₃.kinds := by
    by_cases hth : DirectoryKind.thumbnail ∈ ks
    · have hne : (ifd .root).next ≠ 0 := by
        rw [hnext, if_pos hth]
        have := (hr.inside _ hth).1
        simp only [headerSize] at this
        omega
      have hun : w₂.Untouched .thumbnail := by
        intro x hx hxw
        simp only [reach, List.mem_singleton] at hx
        subst hx
        rw [Walk.kinds, hfound] at hxw
        simp only [w₁, List.map_append, List.map_singleton, hr.kind hroot, List.mem_append,
          List.mem_singleton, List.mem_map] at hxw
        rcases hxw with h | ⟨y, hy, hyk⟩
        · cases h
        · exact absurd (hyk ▸ (hnew y hy).1) (by decide)
      simp only [w₃, if_neg hne]
      rw [hnext, if_pos hth]
      obtain ⟨hw₃, ⟨new', hfound', -⟩, hsettled₃⟩ :=
        hr.followSpec linkDepth _ hth (height_lt_linkDepth _) w₂ hw₂ (Or.inl hun)
      refine ⟨hw₃, fun k hk => ?_⟩
      rcases mem_reach_root k with hk' | rfl
      · have := hroot₂ k hk' hk
        rw [Walk.kinds, hfound', List.map_append]
        exact List.mem_append_left _ this
      · exact hsettled₃ _ (self_mem_reach _) hk
    · have hzero : (ifd .root).next = 0 := by rw [hnext, if_neg hth]
      simp only [w₃, if_pos hzero]
      refine ⟨hw₂, fun k hk => ?_⟩
      rcases mem_reach_root k with hk' | rfl
      · exact hroot₂ k hk' hk
      · exact absurd hk hth
  refine ⟨⟨o, w₃.found⟩, ?_, rfl, hw₃.1.nodup, hw₃.1.found,
    fun k hk => hr.mem_found hw₃.1 (hw₃.2 k hk)⟩
  unfold Segment.read
  rw [hheader, ok_bind]
  simp only [hr.readAt_fresh h₀ hroot hfresh₀, ok_bind]
  rfl

end Walk

end Segment

end TiffLayout
