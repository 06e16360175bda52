import TiffLayout.Proofs.DirectoryRead
/-! Reading back a written draft. A buffer that holds the header and the output of every item of
a placed plan, with its pointers written, reads back as a segment whose draft is the normal form
of the draft planned: the reader finds every directory through the pointer fields and the root's
next offset, and each directory gives back its own fields, sorted by tag, and its thumbnail. -/
namespace TiffLayout

open Segment Buffer

namespace Draft

/-- With no orphan, the parent of every directory is present. -/
theorem parent_mem_of_orphan? {d : Draft} (h : d.orphan? = none) {x : Directory} (hx : x ∈ d.dirs)
    {pk : DirectoryKind} (hpk : x.kind.parent? = some pk) : pk ∈ d.dirs.map (·.kind) := by
  have hfound := List.find?_eq_none.1 h x hx
  simp only [hpk, Bool.not_eq_true'] at hfound
  have hany : d.dirs.any (fun y => decide (y.kind = pk)) = true := by
    cases hb : d.dirs.any (fun y => decide (y.kind = pk))
    · exact absurd hb hfound
    · rfl
  obtain ⟨y, hy, hyk⟩ := List.any_eq_true.1 hany
  exact List.mem_map.2 ⟨y, hy, of_decide_eq_true hyk⟩

theorem indexOf?_eq_none {d : Draft} {k : DirectoryKind} :
    d.indexOf? k = none ↔ k ∉ d.dirs.map (·.kind) := by
  unfold indexOf?
  rw [List.findIdx?_eq_none_iff]
  simp

theorem indexOf?_eq_of_kinds {d d' : Draft} (h : d.dirs.map (·.kind) = d'.dirs.map (·.kind))
    (k : DirectoryKind) : d.indexOf? k = d'.indexOf? k := by
  unfold indexOf?
  have hd := List.findIdx?_map (f := (·.kind)) (l := d.dirs) (p := fun k' => decide (k' = k))
  have hd' := List.findIdx?_map (f := (·.kind)) (l := d'.dirs) (p := fun k' => decide (k' = k))
  rw [h] at hd
  exact hd.symm.trans hd'

theorem insertSorted_perm (x : Directory) : ∀ ys : List Directory, (insertSorted x ys).Perm (x :: ys)
  | [] => List.Perm.refl _
  | y :: ys => by
    unfold insertSorted
    split
    · exact ((insertSorted_perm x ys).cons y).trans (List.Perm.swap x y ys)
    · exact List.Perm.refl _

/-- Inserting a directory of a new kind keeps the directories in layout order. -/
theorem insertSorted_sorted {x : Directory} : ∀ {ys : List Directory},
    (ys.map (·.kind.rank)).Pairwise (· < ·) → (∀ y ∈ ys, y.kind ≠ x.kind) →
    ((insertSorted x ys).map (·.kind.rank)).Pairwise (· < ·)
  | [], _, _ => by simp [insertSorted]
  | y :: ys, hs, hne => by
    rw [List.map_cons, List.pairwise_cons] at hs
    unfold insertSorted
    split
    · rename_i hlt
      rw [List.map_cons, List.pairwise_cons]
      refine ⟨fun r hr => ?_, insertSorted_sorted hs.2 fun z hz => hne z (List.mem_cons_of_mem _ hz)⟩
      obtain ⟨z, hz, rfl⟩ := List.mem_map.1 hr
      rcases mem_insertSorted.1 hz with rfl | hz
      · exact hlt
      · exact hs.1 _ (List.mem_map_of_mem hz)
    · rename_i hge
      have hxy : x.kind.rank < y.kind.rank := by
        have hr : x.kind.rank ≠ y.kind.rank := fun h =>
          hne y List.mem_cons_self (DirectoryKind.rank_injective h).symm
        omega
      rw [List.map_cons, List.map_cons, List.pairwise_cons, List.pairwise_cons]
      refine ⟨fun r hr => ?_, hs.1, hs.2⟩
      rcases List.mem_cons.1 hr with rfl | hr
      · exact hxy
      · exact Nat.lt_trans hxy (hs.1 r hr)

/-- Adding directories of new kinds in the draft's byte order succeeds, keeps the directories in
layout order and gives all of them. -/
theorem foldlM_addDirectory : ∀ {l : List Directory} {d : Draft},
    (∀ x ∈ l, x.byteOrder = d.byteOrder) → ((d.dirs ++ l).map (·.kind)).Nodup →
    (d.dirs.map (·.kind.rank)).Pairwise (· < ·) →
    ∃ d', l.foldlM addDirectory d = .ok d' ∧ d'.byteOrder = d.byteOrder ∧
      d'.dirs.Perm (d.dirs ++ l) ∧ (d'.dirs.map (·.kind.rank)).Pairwise (· < ·)
  | [], d, _, _, hs => ⟨d, rfl, rfl, by simp, hs⟩
  | x :: l, d, hbo, hnd, hs => by
    have hnew : ∀ y ∈ d.dirs, y.kind ≠ x.kind := by
      intro y hy hyx
      rw [List.map_append, List.nodup_append] at hnd
      exact hnd.2.2 _ (List.mem_map_of_mem hy) _ (List.mem_map_of_mem List.mem_cons_self) hyx
    have hadd : d.addDirectory x = .ok { d with dirs := insertSorted x d.dirs } := by
      unfold addDirectory
      rw [if_neg (by simpa using hnew), if_neg (by simpa using hbo x List.mem_cons_self)]
    have hperm : (insertSorted x d.dirs ++ l).Perm (d.dirs ++ x :: l) :=
      ((insertSorted_perm x d.dirs).append_right l).trans List.perm_middle.symm
    obtain ⟨d', hfold, hbo', hperm', hs'⟩ := foldlM_addDirectory (d := { d with dirs := insertSorted x d.dirs })
      (fun y hy => hbo y (List.mem_cons_of_mem _ hy)) ((hperm.map _).nodup_iff.2 hnd)
      (insertSorted_sorted hs hnew)
    refine ⟨d', ?_, hbo', hperm'.trans hperm, hs'⟩
    rw [List.foldlM_cons, hadd]
    exact hfold

/-- A segment whose directories read back as the directories of a well-formed draft, each kind
once, gives back the draft's normal form: adding them in reading order sorts them into layout
order again. -/
theorem ofSegment_eq_normalize {d : Draft} (hwf : d.Coherent) {s : Segment}
    (hbo : s.byteOrder = d.byteOrder) (hnd : (s.ifds.map (·.kind)).Nodup)
    (hread : ∀ y ∈ s.ifds, ∃ x ∈ d.dirs, y.kind = x.kind ∧ Directory.ofIfd s.byteOrder y = x.normalize)
    (hall : ∀ x ∈ d.dirs, ∃ y ∈ s.ifds, Directory.ofIfd s.byteOrder y = x.normalize) :
    ofSegment s = .ok d.normalize := by
  set l := s.ifds.map (Directory.ofIfd s.byteOrder)
  have hfold : ofSegment s = l.foldlM addDirectory (empty s.byteOrder) := by
    unfold ofSegment
    rw [List.foldlM_map]
  have hkinds : l.map (·.kind) = s.ifds.map (·.kind) := by
    rw [List.map_map]
    refine List.map_congr_left fun y hy => ?_
    obtain ⟨x, -, hk, hxy⟩ := hread y hy
    show (Directory.ofIfd s.byteOrder y).kind = y.kind
    rw [hxy, hk]
    rfl
  have hbo_l : ∀ z ∈ l, z.byteOrder = (empty s.byteOrder).byteOrder := by
    intro z hz
    obtain ⟨y, hy, rfl⟩ := List.mem_map.1 hz
    obtain ⟨x, hx, -, hxy⟩ := hread y hy
    rw [hxy, hbo]
    exact hwf.byteOrder x hx
  obtain ⟨d', hd', hbo', hperm, hsorted⟩ := foldlM_addDirectory hbo_l
    (by show ((([] : List Directory) ++ l).map (·.kind)).Nodup; rw [List.nil_append, hkinds]; exact hnd) List.Pairwise.nil
  have hnormal : d.normalize.dirs.map (·.kind) = d.dirs.map (·.kind) := by
    show (d.dirs.map Directory.normalize).map _ = _
    rw [List.map_map]
    rfl
  have hnd_l : l.Nodup := List.Nodup.of_map (·.kind) (by rw [hkinds]; exact hnd)
  have hnd_n : d.normalize.dirs.Nodup :=
    List.Nodup.of_map (·.kind) (by rw [hnormal]; exact hwf.nodup_kinds)
  have hperm_n : l.Perm d.normalize.dirs := by
    rw [List.perm_ext_iff_of_nodup hnd_l hnd_n]
    intro z
    constructor
    · intro hz
      obtain ⟨y, hy, rfl⟩ := List.mem_map.1 hz
      obtain ⟨x, hx, -, hxy⟩ := hread y hy
      rw [hxy]
      exact List.mem_map_of_mem hx
    · intro hz
      obtain ⟨x, hx, rfl⟩ := List.mem_map.1 hz
      obtain ⟨y, hy, hxy⟩ := hall x hx
      rw [← hxy]
      exact List.mem_map_of_mem hy
  have hsorted_n : d.normalize.dirs.Pairwise fun a b => a.kind.rank < b.kind.rank := by
    show (d.dirs.map Directory.normalize).Pairwise _
    rw [List.pairwise_map]
    exact List.pairwise_map.1 hwf.sorted
  -- two lists in strictly increasing layout order with the same members are one
  have hsorted' : d'.dirs.Pairwise fun a b => a.kind.rank < b.kind.rank := List.pairwise_map.1 hsorted
  have hdirs : d'.dirs = d.normalize.dirs := by
    refine List.Perm.eq_of_pairwise ?_ hsorted' hsorted_n (hperm.trans hperm_n)
    intro a b _ _ hab hba
    omega
  have heq : d' = d.normalize := by
    obtain ⟨bo, ds⟩ := d'
    change bo = s.byteOrder at hbo'
    change ds = d.normalize.dirs at hdirs
    rw [hbo', hdirs, hbo]
    rfl
  rw [hfold, hd', heq]

end Draft

namespace Plan

theorem ofDraft_root {d : Draft} {root : Nat} {p : Plan} (h : ofDraft d root = .ok p) :
    p.root = root := by
  obtain ⟨g, -, h⟩ := bind_eq_ok.1 h
  simp only [pure, Except.pure, Except.ok.injEq] at h
  rw [← h]

/-- The chain of a plan hangs the thumbnail directory behind the root, and nothing else. -/
theorem mem_chain {d : Draft} {root : Nat} {p : Plan} (h : ofDraft d root = .ok p) {ri : Nat}
    (hri : d.indexOf? .root = some ri) {e : Nat × Nat} :
    e ∈ p.chain ↔ ∃ j y, d.dirs[j]? = some y ∧ y.kind = .thumbnail ∧ e = (ri, j) := by
  rw [(ofDraft_pointers h).2.2, List.mem_filterMap]
  constructor
  · rintro ⟨⟨y, j⟩, hyj, hlink⟩
    simp only [chainLink, Option.bind_eq_some_iff] at hlink
    obtain ⟨pk, hpk, par, hpar, hlink⟩ := hlink
    split at hlink
    · rename_i htag
      -- the only child without a pointer tag is the thumbnail directory, below the root
      have hkind : y.kind = .thumbnail := by
        cases hk : y.kind <;> simp_all [DirectoryKind.parent?, DirectoryKind.pointerTag?]
      rw [hkind] at hpk
      cases hpk
      rw [hri, Option.some.injEq] at hpar
      subst hpar
      exact ⟨j, y, List.mk_mem_zipIdx_iff_getElem?.1 hyj, hkind, (Option.some.inj hlink).symm⟩
    · cases hlink
  · rintro ⟨j, y, hy, hk, rfl⟩
    exact ⟨(y, j), List.mk_mem_zipIdx_iff_getElem?.2 hy,
      by simp [chainLink, hk, DirectoryKind.parent?, hri, DirectoryKind.pointerTag?]⟩

/-- The root's next directory is the thumbnail directory, when there is one. -/
theorem next?_root {d : Draft} {root : Nat} {p : Plan} (h : ofDraft d root = .ok p)
    (hd : (d.dirs.map (·.kind)).Nodup) {ri : Nat} (hri : d.indexOf? .root = some ri) :
    p.next? ri = d.indexOf? .thumbnail := by
  unfold next?
  cases hti : d.indexOf? .thumbnail with
  | none =>
    have hnone : p.chain.find? (·.1 = ri) = none := by
      rw [List.find?_eq_none]
      intro e he
      obtain ⟨j, y, hy, hk, -⟩ := (mem_chain h hri).1 he
      have := Draft.indexOf?_of_getElem? hd hy
      rw [hk, hti] at this
      cases this
    rw [hnone]
    rfl
  | some ti =>
    obtain ⟨y, hy, hk⟩ := Draft.indexOf?_eq_some hti
    have hmem : (ri, ti) ∈ p.chain := (mem_chain h hri).2 ⟨ti, y, hy, hk, rfl⟩
    have hsome : (p.chain.find? (·.1 = ri)).isSome := List.find?_isSome.2 ⟨_, hmem, by simp⟩
    obtain ⟨e, he⟩ := Option.isSome_iff_exists.1 hsome
    obtain ⟨j, z, hz, hzk, rfl⟩ := (mem_chain h hri).1 (List.mem_of_find?_eq_some he)
    have hj : j = ti := by
      have := Draft.indexOf?_of_getElem? hd hz
      rw [hzk, hti, Option.some.injEq] at this
      exact this.symm
    rw [he, hj]
    rfl

theorem Placed.next?_eq {p₀ p : Plan} (hp : p₀.Placed p) : p.next? = p₀.next? := by
  funext i
  unfold next?
  rw [hp.chain]

/-- A buffer that holds the output of a placed plan: the header naming the root's table, the bytes
of every item at its offset, entry tables at distinct offsets, and nothing past what a 32-bit
offset reaches. -/
structure Image (p : Plan) (d : Draft) (buf : ByteArray) : Prop where
  header : ∃ r, p.rootOffset = .ok r ∧
    Holds buf 0 (p.byteOrder.marker ++ p.byteOrder.encode 2 magic ++ p.byteOrder.encode 4 r)
  written : p.Written d buf
  tables : ∀ i i' t, p.dirOffset i = .ok t → p.dirOffset i' = .ok t → i = i'
  size : buf.size ≤ Width.bits32.bound

/-- Every written table of an image reads back. -/
theorem Image.readIfd {p : Plan} {d : Draft} {buf : ByteArray} (himg : p.Image d buf) {i : Nat}
    {x : Directory} (hx : d.dirs[i]? = some x)
    (hcons : ∀ f ∈ x.fields, f.count * f.type.size = f.bytes.size) {t : Nat}
    (ht : p.dirOffset i = .ok t) (k : DirectoryKind) :
    ∃ entries next table, p.nextPiece i = .ok (p.byteOrder.encode 4 next) ∧
      next < Width.bits32.bound ∧ readIfd buf p.byteOrder k t =
        .ok ⟨k, t, entries, next, thumbnailOf buf p.byteOrder entries, table⟩ ∧
      p.EntriesOf i x entries := by
  obtain ⟨hend, hvalues⟩ := himg.written.below hx ht
  exact readIfd_written himg.written hx hcons ht (hend.trans himg.size)
    (fun j f id v hf hid hv => (hvalues j f id v hf hid hv).trans himg.size) k

/-- What directory i of draft d reads back as: the table at the directory's placed offset, ending
with the next offset written, whose entries give back the directory's normal form and whose
pointer entries link to the tables of the present kinds below it. -/
structure ReadsBack (p : Plan) (d : Draft) (buf : ByteArray) (i : Nat) (x : Directory) (y : Ifd) :
    Prop where
  offset : p.dirOffset i = .ok y.offset
  inside : headerSize ≤ y.offset ∧ y.offset < buf.size
  read : readIfd buf p.byteOrder x.kind y.offset = .ok y
  next : p.nextPiece i = .ok (p.byteOrder.encode 4 y.next)
  next_lt : y.next < Width.bits32.bound
  normal : Directory.ofIfd p.byteOrder y = x.normalize
  links : ∀ ifd : DirectoryKind → Ifd,
    (∀ c ci v, d.indexOf? c = some ci → p.dirOffset ci = .ok v → (ifd c).offset = v) →
    ∀ c v, (c, v) ∈ y.links p.byteOrder ↔
      c ∈ d.dirs.map (·.kind) ∧ DirectoryKind.PointerChild c x.kind ∧ v = (ifd c).offset

section ReadBack

variable {d d₂ d₃ : Draft} {p₀ p : Plan} {buf : ByteArray}

/-- Every directory of a planned draft has its table placed, once the items are written. -/
theorem dirOffset_ok (hwf : d.Coherent) (hplan : d.plan = (d₂, .ok p₀)) (hp : p₀.Placed p)
    (hw : p.Written d₃ buf) {i : Nat} {x : Directory} (hx : d.dirs[i]? = some x) :
    ∃ t, p.dirOffset i = .ok t := by
  obtain ⟨root, -, -, -, hof⟩ := Draft.plan_eq_ok hplan
  have hmem := ofDraft_mem_table hof (plan_dir hwf hplan hx)
  rw [← hp.parts] at hmem
  obtain ⟨it, hit, hpart⟩ := List.mem_map.1 hmem
  obtain ⟨id, hid⟩ := List.mem_iff_getElem?.1 hit
  have hnd : (p.items.map (·.part)).Nodup := by
    rw [hp.parts]
    exact ofDraft_nodup_parts hof
  obtain ⟨off, _, hoff, -⟩ := hw it hit
  refine ⟨off, ?_⟩
  unfold dirOffset
  rw [tableItem?_of_part hnd hid hpart]
  exact itemOffset_eq_ok.2 ⟨it, hid, hoff⟩

/-- Each directory of a planned, placed and patched draft reads back from an image of the plan. -/
theorem Image.readsBack (hwf : d.Coherent) (hcons : d.Consistent) (hplan : d.plan = (d₂, .ok p₀))
    (hp : p₀.Placed p) (hpatch : p.patch d₂ = (d₃, .ok ())) (himg : p.Image d₃ buf)
    {i : Nat} {x : Directory} (hx : d.dirs[i]? = some x) : ∃ y, p.ReadsBack d buf i x y := by
  obtain ⟨-, -, hfilled⟩ := filled hwf hplan hp hpatch
  obtain ⟨x', hx', hF⟩ := hfilled i x hx
  have hxmem : x ∈ d.dirs := List.mem_of_getElem? hx
  have hnonempty := hwf.thumbnails x hxmem
  obtain ⟨t, ht⟩ := dirOffset_ok hwf hplan hp himg.written hx
  obtain ⟨entries, next, table, hnext, hnext32, hread, hE⟩ :=
    himg.readIfd hx' (hF.consistent (hcons x hxmem)) ht x.kind
  have hthumb := hE.thumbnailOf hF himg.written hx' hnonempty
  have hbo : x.byteOrder = p.byteOrder :=
    (hwf.byteOrder x hxmem).trans (plan_byteOrder hwf hplan hp).symm
  exact ⟨⟨x.kind, t, entries, next, thumbnailOf buf p.byteOrder entries, table⟩, ht,
    himg.written.table_inside hx' ht, hread, hnext, hnext32,
    ofIfd_eq hE hF rfl rfl hthumb hbo hnonempty, fun ifd hoff => hE.links hF rfl rfl hoff⟩

/-- The root's table ends with the offset of the thumbnail directory's table, or with zero when
there is none. -/
theorem ReadsBack.next_root (hwf : d.Coherent) (hplan : d.plan = (d₂, .ok p₀)) (hp : p₀.Placed p)
    {ri : Nat} {x : Directory} {y : Ifd} (hr : p.ReadsBack d buf ri x y)
    (hri : d.indexOf? .root = some ri) {ifd : DirectoryKind → Ifd}
    (hoff : ∀ c ci v, d.indexOf? c = some ci → p.dirOffset ci = .ok v → (ifd c).offset = v) :
    y.next = if DirectoryKind.thumbnail ∈ d.dirs.map (·.kind) then (ifd .thumbnail).offset else 0 := by
  obtain ⟨root, -, -, -, hof⟩ := Draft.plan_eq_ok hplan
  have hkinds := plan_kinds hwf hplan
  have hnext : p.next? ri = d.indexOf? .thumbnail := by
    rw [hp.next?_eq, ← Draft.indexOf?_eq_of_kinds hkinds]
    refine next?_root hof (by rw [hkinds]; exact hwf.nodup_kinds) ?_
    rw [Draft.indexOf?_eq_of_kinds hkinds, hri]
  have hpiece := hr.next
  unfold nextPiece at hpiece
  rw [hnext] at hpiece
  have hlt : y.next < ByteOrder.capacity 4 := by simpa [Width.bound] using hr.next_lt
  cases hti : d.indexOf? .thumbnail with
  | none =>
    rw [hti] at hpiece
    rw [if_neg (Draft.indexOf?_eq_none.1 hti)]
    exact p.byteOrder.encode_inj_of_lt hlt (by simp) (Except.ok.inj hpiece).symm
  | some ti =>
    rw [hti] at hpiece
    obtain ⟨v, hv, hbytes⟩ := bind_eq_ok.1 hpiece
    obtain ⟨hv32, henc⟩ := offsetBytes_eq_ok hbytes
    obtain ⟨z, hz, hzk⟩ := Draft.indexOf?_eq_some hti
    rw [if_pos (List.mem_map.2 ⟨z, List.mem_of_getElem? hz, hzk⟩), hoff .thumbnail ti v hti hv]
    exact p.byteOrder.encode_inj_of_lt hlt (by simpa [Width.bound] using hv32) henc

/-- In a buffer holding the output of a planned, placed and patched well-formed draft, each kind
of the draft has an entry table that reads back as its directory's, at the offset planned for
it, and together these tables can be read as a segment. -/
theorem Image.readable (hwf : d.Coherent) (hcons : d.Consistent) (hplan : d.plan = (d₂, .ok p₀))
    (hp : p₀.Placed p) (hpatch : p.patch d₂ = (d₃, .ok ())) (himg : p.Image d₃ buf) :
    ∃ ifd : DirectoryKind → Ifd, (∀ k ∈ d.dirs.map (·.kind),
        ∃ i x, d.dirs[i]? = some x ∧ x.kind = k ∧ p.ReadsBack d buf i x (ifd k)) ∧
      (∀ c ci v, d.indexOf? c = some ci → p.dirOffset ci = .ok v → (ifd c).offset = v) ∧
      Readable buf p.byteOrder (d.dirs.map (·.kind)) ifd := by
  obtain ⟨-, -, horphan, -, -⟩ := Draft.plan_eq_ok hplan
  have hex : ∀ k, ∃ y : Ifd, k ∈ d.dirs.map (·.kind) →
      ∃ i x, d.dirs[i]? = some x ∧ x.kind = k ∧ p.ReadsBack d buf i x y := by
    intro k
    by_cases hk : k ∈ d.dirs.map (·.kind)
    · obtain ⟨x, hx, rfl⟩ := List.mem_map.1 hk
      obtain ⟨i, hi⟩ := List.mem_iff_getElem?.1 hx
      obtain ⟨y, hy⟩ := himg.readsBack hwf hcons hplan hp hpatch hi
      exact ⟨y, fun _ => ⟨i, x, hi, rfl, hy⟩⟩
    · exact ⟨⟨k, 0, [], 0, none, .empty⟩, fun h => absurd h hk⟩
  choose ifd hifd using hex
  have hoff : ∀ c ci v, d.indexOf? c = some ci → p.dirOffset ci = .ok v → (ifd c).offset = v := by
    intro c ci v hci hv
    obtain ⟨z, hz, rfl⟩ := Draft.indexOf?_eq_some hci
    obtain ⟨i, x, hx, hk, hr⟩ := hifd z.kind (List.mem_map_of_mem (List.mem_of_getElem? hz))
    have hi : ci = i := by
      have := Draft.indexOf?_of_getElem? hwf.nodup_kinds hx
      rwa [hk, hci, Option.some.injEq] at this
    rw [hi, hr.offset] at hv
    exact Except.ok.inj hv
  refine ⟨ifd, hifd, hoff, fun k hk => ?_, fun k hk => ?_, fun k hk k' hk' heq => ?_,
    fun k hk c v => ?_, fun k hk pk hpk => ?_⟩
  · obtain ⟨i, x, -, rfl, hr⟩ := hifd k hk
    exact hr.read
  · obtain ⟨i, x, -, -, hr⟩ := hifd k hk
    exact hr.inside
  · obtain ⟨i, x, hx, rfl, hr⟩ := hifd k hk
    obtain ⟨i', x', hx', rfl, hr'⟩ := hifd k' hk'
    have hii : i = i' := himg.tables i i' _ hr.offset (by rw [heq]; exact hr'.offset)
    subst hii
    rw [hx, Option.some.injEq] at hx'
    rw [hx']
  · obtain ⟨i, x, -, rfl, hr⟩ := hifd k hk
    exact hr.links ifd hoff c v
  · obtain ⟨x, hx, rfl⟩ := List.mem_map.1 hk
    exact Draft.parent_mem_of_orphan? horphan hx hpk

/-- A buffer holding the output of a planned, placed and patched well-formed draft reads back as
a segment in the plan's byte order with one directory of each kind of the draft: each directory of
the draft reads back from its table as `ReadsBack` says, and nothing else is read. -/
theorem Image.read_ifds (hwf : d.Coherent) (hcons : d.Consistent) (hplan : d.plan = (d₂, .ok p₀))
    (hp : p₀.Placed p) (hpatch : p.patch d₂ = (d₃, .ok ())) (himg : p.Image d₃ buf) :
    ∃ s, Segment.read buf = .ok s ∧ s.byteOrder = p.byteOrder ∧ (s.ifds.map (·.kind)).Nodup ∧
      (∀ y ∈ s.ifds, ∃ i x, d.dirs[i]? = some x ∧ p.ReadsBack d buf i x y) ∧
      ∀ i x, d.dirs[i]? = some x → ∃ y ∈ s.ifds, p.ReadsBack d buf i x y := by
  obtain ⟨ri, hri, -, -, hof⟩ := Draft.plan_eq_ok hplan
  obtain ⟨ifd, hifd, hoff, hreadable⟩ := himg.readable hwf hcons hplan hp hpatch
  have hroot : DirectoryKind.root ∈ d.dirs.map (·.kind) := by
    obtain ⟨z, hz, hzk⟩ := Draft.indexOf?_eq_some hri
    exact List.mem_map.2 ⟨z, List.mem_of_getElem? hz, hzk⟩
  obtain ⟨r, hr, hholds⟩ := himg.header
  have hroot_off : p.dirOffset ri = .ok r := by
    unfold rootOffset at hr
    rwa [hp.root, ofDraft_root hof] at hr
  have hrr := hoff .root ri r hri hroot_off
  have hheader : readHeader buf = .ok (p.byteOrder, (ifd .root).offset) := by
    rw [hrr]
    refine readHeader_of_holds hholds ?_
    have hinside := (hreadable.inside .root hroot).2
    have hsize := himg.size
    omega
  have hnext : (ifd .root).next =
      if DirectoryKind.thumbnail ∈ d.dirs.map (·.kind) then (ifd .thumbnail).offset else 0 := by
    obtain ⟨i, x, hx, hk, hr⟩ := hifd .root hroot
    have hi : d.indexOf? .root = some i := by
      rw [← hk]
      exact Draft.indexOf?_of_getElem? hwf.nodup_kinds hx
    exact hr.next_root hwf hplan hp hi hoff
  obtain ⟨s, hs, hsbo, hnd, hsub, hsup⟩ := hreadable.read_eq hroot hheader hnext
  refine ⟨s, hs, hsbo, hnd, fun y hy => ?_, fun i x hx => ?_⟩
  · obtain ⟨k, hk, rfl⟩ := hsub y hy
    obtain ⟨i, x, hx, -, hr⟩ := hifd k hk
    exact ⟨i, x, hx, hr⟩
  · obtain ⟨i', z, hz, hzk, hr⟩ := hifd x.kind (List.mem_map_of_mem (List.mem_of_getElem? hx))
    -- the draft has one directory of each kind, so the one read for the kind is directory `i`
    have hii : i' = i := by
      have h₁ := Draft.indexOf?_of_getElem? hwf.nodup_kinds hz
      rw [hzk, Draft.indexOf?_of_getElem? hwf.nodup_kinds hx] at h₁
      exact (Option.some.inj h₁).symm
    subst hii
    rw [hx, Option.some.injEq] at hz
    subst hz
    exact ⟨ifd x.kind, hsup _ (List.mem_map_of_mem (List.mem_of_getElem? hx)), hr⟩

/-- A buffer holding the output of a planned, placed and patched well-formed draft reads back as
a segment in the draft's byte order whose draft is the normal form of the one written. -/
theorem Image.readBack (hwf : d.Coherent) (hcons : d.Consistent) (hplan : d.plan = (d₂, .ok p₀))
    (hp : p₀.Placed p) (hpatch : p.patch d₂ = (d₃, .ok ())) (himg : p.Image d₃ buf) :
    ∃ s, Segment.read buf = .ok s ∧ s.byteOrder = d.byteOrder ∧
      Draft.ofSegment s = .ok d.normalize := by
  obtain ⟨s, hs, hsbo, hnd, hsub, hsup⟩ := himg.read_ifds hwf hcons hplan hp hpatch
  have hbo := (hsbo.trans (plan_byteOrder hwf hplan hp))
  refine ⟨s, hs, hbo, Draft.ofSegment_eq_normalize hwf hbo hnd ?_ ?_⟩
  · intro y hy
    obtain ⟨i, x, hx, hr⟩ := hsub y hy
    exact ⟨x, List.mem_of_getElem? hx, readIfd_kind hr.read, by rw [hsbo]; exact hr.normal⟩
  · intro x hx
    obtain ⟨i, hi⟩ := List.mem_iff_getElem?.1 hx
    obtain ⟨y, hy, hr⟩ := hsup i x hi
    exact ⟨y, hy, by rw [hsbo]; exact hr.normal⟩

end ReadBack

end Plan

end TiffLayout
