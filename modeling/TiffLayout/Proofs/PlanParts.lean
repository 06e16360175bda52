import TiffLayout.Proofs.Items
/-! Where the parts of a draft stand in its plan. The items come directory by directory, each
directory its table, its out-of-line values in field order and its thumbnail; every pointer
names the field that receives the offset of a thumbnail or of a child's table. -/
namespace TiffLayout

namespace Plan

/-- The items of directory `i`: its table, its out-of-line values in field order, then its
thumbnail. -/
def dirItems (i : Nat) (x : Directory) : List Item :=
  ⟨.table i, Ifd.tableLength x.fields.length, none⟩ ::
    ((x.fields.zipIdx.filter (·.1.outOfLine)).map fun a => ⟨.value i a.2, a.1.bytes.size, a.1.keptOffset⟩) ++
    (x.thumbnail.map fun t => ⟨.thumbnail i, t.size, none⟩).toList

theorem valueItems_eq {i : Nat} {fields : List Field} {values : List Item}
    (h : valueItems i fields = .ok values) :
    values = (fields.zipIdx.filter (·.1.outOfLine)).map
      fun a => ⟨.value i a.2, a.1.bytes.size, a.1.keptOffset⟩ := by
  refine mapM_eq_ok_map (fun a _ v hv => ?_) h
  obtain ⟨length, hlength, hv⟩ := bind_eq_ok.1 hv
  obtain ⟨-, rfl⟩ := Width.narrow_ok_iff.1 (checked_eq_ok.1 hlength)
  simp only [pure, Except.pure, Except.ok.injEq] at hv
  exact hv.symm

/-- A gathered directory appends its items. -/
theorem gather_items_eq {d : Draft} {g g' : Gather} {x : Directory} {i : Nat}
    (h : gather d g x i = .ok g') : g'.items = g.items ++ dirItems i x := by
  obtain ⟨length, values, hlength, hvalues, hitems⟩ := gather_items h
  rw [hitems, tableLength?_eq_ok hlength, valueItems_eq hvalues, dirItems]
  simp

theorem foldlM_gather_items {d : Draft} :
    ∀ {l : List (Directory × Nat)} {g g' : Gather},
      l.foldlM (fun g (xi : Directory × Nat) => gather d g xi.1 xi.2) g = .ok g' →
      g'.items = g.items ++ l.flatMap fun xi => dirItems xi.2 xi.1
  | [], g, g', h => by
    simp only [List.foldlM_nil, pure, Except.pure, Except.ok.injEq] at h
    simp [h]
  | xi :: l, g, g', h => by
    rw [List.foldlM_cons] at h
    obtain ⟨g₁, hg₁, h⟩ := bind_eq_ok.1 h
    rw [foldlM_gather_items h, gather_items_eq hg₁, List.flatMap_cons, List.append_assoc]

/-- The items of a plan, directory by directory. -/
theorem ofDraft_items {d : Draft} {root : Nat} {p : Plan} (h : ofDraft d root = .ok p) :
    p.items = d.dirs.zipIdx.flatMap fun xi => dirItems xi.2 xi.1 := by
  obtain ⟨g, hg, h⟩ := bind_eq_ok.1 h
  simp only [pure, Except.pure, Except.ok.injEq] at h
  subst h
  simpa using foldlM_gather_items hg

theorem link_eq_ok {d : Draft} {x : Directory} {i tableId : Nat} {ptrs : List Pointer}
    {chain : List (Nat × Nat)} (h : link d x i tableId = .ok (ptrs, chain)) :
    (x.kind.parent? = none ∧ ptrs = [] ∧ chain = []) ∨
    ∃ pk par, x.kind.parent? = some pk ∧ d.indexOf? pk = some par ∧
      ((∃ t, x.kind.pointerTag? = some t ∧ ptrs = [⟨par, t, tableId⟩] ∧ chain = []) ∨
        (x.kind.pointerTag? = none ∧ ptrs = [] ∧ chain = [(par, i)])) := by
  unfold link at h
  split at h
  · rename_i pk hpk
    split at h
    · rename_i par hpar
      split at h
      · rename_i t ht
        simp only [pure, Except.pure, Except.ok.injEq, Prod.mk.injEq] at h
        exact .inr ⟨pk, par, hpk, hpar, .inl ⟨t, ht, h.1.symm, h.2.symm⟩⟩
      · rename_i ht
        simp only [pure, Except.pure, Except.ok.injEq, Prod.mk.injEq] at h
        exact .inr ⟨pk, par, hpk, hpar, .inr ⟨ht, h.1.symm, h.2.symm⟩⟩
    · cases h
  · rename_i hpk
    simp only [pure, Except.pure, Except.ok.injEq, Prod.mk.injEq] at h
    exact .inl ⟨hpk, h.1.symm, h.2.symm⟩

/-- What gathering a directory adds: its items, the pointer to its thumbnail, which is its last
item, and the pointer or chain link that hangs it below its parent. -/
theorem gather_eq {d : Draft} {g g' : Gather} {x : Directory} {i : Nat} (h : gather d g x i = .ok g') :
    g'.items = g.items ++ dirItems i x ∧
    g'.thumbnailPointers = g.thumbnailPointers ++ (x.thumbnail.map fun _ =>
      (⟨i, Tag.thumbnailOffset, (g.items ++ dirItems i x).length - 1⟩ : Pointer)).toList ∧
    ∃ ptrs chain, link d x i g.items.length = .ok (ptrs, chain) ∧
      g'.dirPointers = g.dirPointers ++ ptrs ∧ g'.chain = g.chain ++ chain := by
  have hitems := gather_items_eq h
  obtain ⟨n, hn, h⟩ := bind_eq_ok.1 h
  obtain ⟨length, hlength, h⟩ := bind_eq_ok.1 h
  obtain ⟨values, hvalues, h⟩ := bind_eq_ok.1 h
  obtain ⟨⟨thumb, thumbPointer⟩, hthumb, h⟩ := bind_eq_ok.1 h
  obtain ⟨⟨ptrs, chain⟩, hlink, h⟩ := bind_eq_ok.1 h
  simp only [pure, Except.pure, Except.ok.injEq] at h
  subst h
  refine ⟨hitems, ?_, ptrs, chain, hlink, rfl, rfl⟩
  rw [(thumbnailItem_eq_ok hthumb).2]
  rcases hth : x.thumbnail with _ | th
  · rfl
  · rw [valueItems_eq hvalues, dirItems, hth]
    simp

/-- The directory and tag of the pointer field that receives the offset of `x`'s table. -/
def pointerKey (d : Draft) (x : Directory) : Option (Nat × Tag) :=
  x.kind.parent?.bind fun pk => (d.indexOf? pk).bind fun par => x.kind.pointerTag?.map (par, ·)

/-- The chain link that hangs directory `i` behind its parent. -/
def chainLink (d : Draft) (x : Directory) (i : Nat) : Option (Nat × Nat) :=
  x.kind.parent?.bind fun pk => (d.indexOf? pk).bind fun par =>
    if x.kind.pointerTag? = none then some (par, i) else none

/-- Every pointer gathered so far names the item that receives its offset: a thumbnail offset
names the thumbnail of its directory, and a directory pointer the table of a child kind whose
parent is the pointer's directory. -/
structure Gather.Sound (d : Draft) (g : Gather) : Prop where
  thumbnail : ∀ q ∈ g.thumbnailPointers, q.tag = Tag.thumbnailOffset ∧
    (g.items[q.target]?).map (·.part) = some (.thumbnail q.dir)
  dir : ∀ q ∈ g.dirPointers, ∃ c x pk, d.dirs[c]? = some x ∧ x.kind.pointerTag? = some q.tag ∧
    x.kind.parent? = some pk ∧ d.indexOf? pk = some q.dir ∧
    (g.items[q.target]?).map (·.part) = some (.table c)

theorem getElem?_append_of_map {l₁ l₂ : List Item} {n : Nat} {P : Part}
    (h : (l₁[n]?).map (·.part) = some P) : ((l₁ ++ l₂)[n]?).map (·.part) = some P := by
  obtain ⟨it, hit, -⟩ := Option.map_eq_some_iff.1 h
  rw [List.getElem?_append_left (List.getElem?_eq_some_iff.1 hit).1]
  exact h

theorem Gather.Sound.gather {d : Draft} {g g' : Gather} {x : Directory} {i : Nat} (hg : g.Sound d)
    (h : Plan.gather d g x i = .ok g') (hx : d.dirs[i]? = some x) : g'.Sound d := by
  obtain ⟨hitems, hthumbs, ptrs, chain, hlink, hdirs, -⟩ := gather_eq h
  constructor
  · intro q hq
    rw [hthumbs] at hq
    rcases List.mem_append.1 hq with hq | hq
    · obtain ⟨htag, hpart⟩ := hg.thumbnail q hq
      exact ⟨htag, hitems ▸ getElem?_append_of_map hpart⟩
    · rcases hth : x.thumbnail with _ | th
      · simp [hth] at hq
      · simp only [hth, Option.map_some, Option.toList_some, List.mem_singleton] at hq
        subst hq
        have hlast : g.items ++ dirItems i x = (g.items ++ ⟨.table i, Ifd.tableLength x.fields.length, none⟩ ::
            ((x.fields.zipIdx.filter (·.1.outOfLine)).map fun a =>
              (⟨.value i a.2, a.1.bytes.size, a.1.keptOffset⟩ : Item))) ++ [⟨.thumbnail i, th.size, none⟩] := by
          simp [dirItems, hth]
        refine ⟨rfl, ?_⟩
        rw [hitems, hlast, List.length_append, List.length_singleton, Nat.add_sub_cancel,
          List.getElem?_concat_length]
        rfl
  · intro q hq
    rw [hdirs] at hq
    rcases List.mem_append.1 hq with hq | hq
    · obtain ⟨c, y, pk, hy, ht, hpk, hpar, hpart⟩ := hg.dir q hq
      exact ⟨c, y, pk, hy, ht, hpk, hpar, hitems ▸ getElem?_append_of_map hpart⟩
    · rcases link_eq_ok hlink with ⟨-, rfl, -⟩ | ⟨pk, par, hpk, hpar, ⟨t, ht, rfl, -⟩ | ⟨-, rfl, -⟩⟩
      · cases hq
      · rw [List.mem_singleton] at hq
        subst hq
        refine ⟨i, x, pk, hx, ht, hpk, hpar, ?_⟩
        rw [hitems, List.getElem?_append_right (Nat.le_refl _), Nat.sub_self]
        simp [dirItems]
      · cases hq

theorem link_keys {d : Draft} {x : Directory} {i tableId : Nat} {ptrs : List Pointer}
    {chain : List (Nat × Nat)} (h : link d x i tableId = .ok (ptrs, chain)) :
    ptrs.map (fun q => (q.dir, q.tag)) = (pointerKey d x).toList ∧ chain = (chainLink d x i).toList := by
  rcases link_eq_ok h with ⟨hpk, rfl, rfl⟩ | ⟨pk, par, hpk, hpar, ⟨t, ht, rfl, rfl⟩ | ⟨ht, rfl, rfl⟩⟩
  · simp [pointerKey, chainLink, hpk]
  · simp [pointerKey, chainLink, hpk, hpar, ht]
  · simp [pointerKey, chainLink, hpk, hpar, ht]

/-- Gathering directories in order keeps every pointer naming its item, gives one thumbnail
pointer for each directory with a thumbnail, one directory pointer for each directory that hangs
below its parent by a pointer field, and a chain link for each other child. -/
theorem foldlM_gather_spec {d : Draft} : ∀ {l : List (Directory × Nat)} {g g' : Gather},
    (∀ xi ∈ l, d.dirs[xi.2]? = some xi.1) → g.Sound d →
    l.foldlM (fun g (xi : Directory × Nat) => gather d g xi.1 xi.2) g = .ok g' →
    g'.Sound d ∧
    g'.thumbnailPointers.map (·.dir) =
      g.thumbnailPointers.map (·.dir) ++ (l.filter (·.1.thumbnail.isSome)).map (·.2) ∧
    g'.dirPointers.map (fun q => (q.dir, q.tag)) =
      g.dirPointers.map (fun q => (q.dir, q.tag)) ++ (l.map (·.1)).filterMap (pointerKey d) ∧
    g'.chain = g.chain ++ l.filterMap fun xi => chainLink d xi.1 xi.2
  | [], g, g', _, hg, h => by
    simp only [List.foldlM_nil, pure, Except.pure, Except.ok.injEq] at h
    subst h
    simp [hg]
  | xi :: l, g, g', hl, hg, h => by
    rw [List.foldlM_cons] at h
    obtain ⟨g₁, hg₁, h⟩ := bind_eq_ok.1 h
    have hx := hl xi List.mem_cons_self
    obtain ⟨-, hthumbs, ptrs, chain, hlink, hdirs, hchain⟩ := gather_eq hg₁
    obtain ⟨hsound, hthumbs', hdirs', hchain'⟩ :=
      foldlM_gather_spec (fun a ha => hl a (List.mem_cons_of_mem _ ha)) (hg.gather hg₁ hx) h
    obtain ⟨hptrs, hlinkChain⟩ := link_keys hlink
    refine ⟨hsound, ?_, ?_, ?_⟩
    · rw [hthumbs', hthumbs]
      cases hth : xi.1.thumbnail <;> simp [hth]
    · rw [hdirs', hdirs, List.map_append, hptrs]
      rcases hk : pointerKey d xi.1 with _ | k <;> simp [hk]
    · rw [hchain', hchain, hlinkChain]
      rcases hk : chainLink d xi.1 xi.2 with _ | k <;> simp [hk]

/-- The pointers and chain of a plan: every pointer names the item that receives its offset;
there is one thumbnail pointer for each directory with a thumbnail, one directory pointer for
each directory hung below its parent by a pointer field, and a chain link for each other
child. -/
theorem ofDraft_pointers {d : Draft} {root : Nat} {p : Plan} (h : ofDraft d root = .ok p) :
    (∀ q ∈ p.pointers, (q.tag = Tag.thumbnailOffset ∧
        (p.items[q.target]?).map (·.part) = some (.thumbnail q.dir)) ∨
      ∃ c x pk, d.dirs[c]? = some x ∧ x.kind.pointerTag? = some q.tag ∧
        x.kind.parent? = some pk ∧ d.indexOf? pk = some q.dir ∧
        (p.items[q.target]?).map (·.part) = some (.table c)) ∧
    p.pointers.map (fun q => (q.dir, q.tag)) =
      ((d.dirs.zipIdx.filter (·.1.thumbnail.isSome)).map fun xi => (xi.2, Tag.thumbnailOffset)) ++
        d.dirs.filterMap (pointerKey d) ∧
    p.chain = d.dirs.zipIdx.filterMap fun xi => chainLink d xi.1 xi.2 := by
  obtain ⟨g, hg, h⟩ := bind_eq_ok.1 h
  simp only [pure, Except.pure, Except.ok.injEq] at h
  subst h
  have hempty : Gather.Sound d {} := ⟨by simp, by simp⟩
  obtain ⟨hsound, hthumbs, hdirs, hchain⟩ :=
    foldlM_gather_spec (fun xi hxi => List.mk_mem_zipIdx_iff_getElem?.1 hxi) hempty hg
  refine ⟨fun q hq => ?_, ?_, by simpa using hchain⟩
  · rcases List.mem_append.1 hq with hq | hq
    · exact .inl (hsound.thumbnail q hq)
    · exact .inr (hsound.dir q hq)
  · have htags : g.thumbnailPointers.map (fun q => (q.dir, q.tag)) =
        (g.thumbnailPointers.map (·.dir)).map (·, Tag.thumbnailOffset) := by
      rw [List.map_map]
      exact List.map_congr_left fun q hq => by simp [(hsound.thumbnail q hq).1]
    simp only [List.map_append, htags, hthumbs, hdirs]
    simp [List.zipIdx_map_fst]

end Plan

end TiffLayout
