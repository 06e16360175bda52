import TiffLayout.Proofs.Failures
/-! The outcome of planning a draft: which failure it gives and when, and what a plan holds. -/
namespace TiffLayout

namespace Plan

theorem tableLength?_arith {n : Nat} {e : LayoutError} (h : tableLength? n = .error e) :
    ∃ a, e = .arith a := by
  unfold tableLength? at h
  rcases bind_eq_error.1 h with h | ⟨_, -, h⟩
  · exact checked_eq_error h
  rcases bind_eq_error.1 h with h | ⟨_, -, h⟩
  · exact checked_eq_error h
  · exact checked_eq_error h

theorem valueItems_arith {i : Nat} {fields : List Field} {e : LayoutError}
    (h : valueItems i fields = .error e) : ∃ a, e = .arith a := by
  obtain ⟨⟨_, _⟩, -, h⟩ := mapM_eq_error h
  dsimp only at h
  rcases bind_eq_error.1 h with h | ⟨_, -, h⟩
  · exact checked_eq_error h
  · cases h

theorem thumbnailItem_arith {i id : Nat} {x : Directory} {e : LayoutError}
    (h : thumbnailItem i x id = .error e) : ∃ a, e = .arith a := by
  unfold thumbnailItem at h
  split at h
  · rcases bind_eq_error.1 h with h | ⟨_, -, h⟩
    · exact checked_eq_error h
    · cases h
  · cases h

/-- A directory whose parent kind is present links to it. -/
theorem link_ok {d : Draft} {x : Directory} (i tableId : Nat)
    (hpar : ∀ pk, x.kind.parent? = some pk → ∃ j, d.indexOf? pk = some j) :
    ∃ r, link d x i tableId = .ok r := by
  unfold link
  split
  · rename_i pk hpk
    obtain ⟨j, hj⟩ := hpar pk hpk
    simp only [hj]
    split <;> exact ⟨_, rfl⟩
  · exact ⟨_, rfl⟩

/-- Gathering a directory whose parent kind is present fails only by arithmetic. -/
theorem gather_arith {d : Draft} {g : Gather} {x : Directory} {i : Nat} {e : LayoutError}
    (hpar : ∀ pk, x.kind.parent? = some pk → ∃ j, d.indexOf? pk = some j)
    (h : gather d g x i = .error e) : ∃ a, e = .arith a := by
  unfold gather at h
  rcases bind_eq_error.1 h with h | ⟨_, -, h⟩
  · exact checked_eq_error h
  rcases bind_eq_error.1 h with h | ⟨_, -, h⟩
  · exact tableLength?_arith h
  rcases bind_eq_error.1 h with h | ⟨_, -, h⟩
  · exact valueItems_arith h
  rcases bind_eq_error.1 h with h | ⟨⟨_, _⟩, -, h⟩
  · exact thumbnailItem_arith h
  obtain ⟨⟨_, _⟩, hr⟩ := link_ok i g.items.length hpar
  dsimp only at h
  rw [hr, ok_bind] at h
  cases h

/-- Planning a draft in which every parent kind is present fails only by arithmetic. -/
theorem ofDraft_arith {d : Draft} {root : Nat} {e : LayoutError}
    (hpar : ∀ x ∈ d.dirs, ∀ pk, x.kind.parent? = some pk → ∃ j, d.indexOf? pk = some j)
    (h : ofDraft d root = .error e) : ∃ a, e = .arith a := by
  unfold ofDraft at h
  rcases bind_eq_error.1 h with h | ⟨_, -, h⟩
  · refine (foldlM_induction (fun _ l => ∀ xi ∈ l, xi.1 ∈ d.dirs) (fun e => ∃ a, e = .arith a)
      (fun _ xi l hl => ⟨fun _ _ xi' hxi' => hl xi' (List.mem_cons_of_mem _ hxi'),
        fun _ he => gather_arith (hpar _ (hl xi List.mem_cons_self)) he⟩)
      (fun xi hxi => List.mem_of_getElem? (List.mem_zipIdx_iff_getElem?.1 hxi))).2 e h
  · cases h

end Plan

namespace Draft

variable {d : Draft}

/-- Synthesis of a coherent draft fails only by arithmetic: a thumbnail too long for a 32-bit
length. -/
theorem synthesize_arith (hwf : d.Coherent) {e : LayoutError} (h : d.synthesize = .error e) :
    ∃ a, e = .arith a := by
  unfold synthesize at h
  rcases bind_eq_error.1 h with h | ⟨_, -, h⟩
  · obtain ⟨x, hx, h⟩ := mapM_eq_error h
    rcases bind_eq_error.1 h with h | ⟨_, -, h⟩
    · rw [Directory.synthesize_eq (hwf.distinctTags x hx) hwf.nodup_kinds] at h
      split at h
      · rename_i th _
        cases hn : checked (Width.bits32.narrow th.size) with
        | error e' =>
          rw [hn] at h
          cases h
          exact checked_eq_error hn
        | ok w =>
          rw [hn] at h
          cases h
      · cases h
    · cases h
  · cases h

/-- A directory whose parent kind is missing from the draft. -/
def Orphan (d : Draft) (x : Directory) : Prop :=
  ∃ pk, x.kind.parent? = some pk ∧ ∀ y ∈ d.dirs, y.kind ≠ pk

/-- The test that planning applies to each directory finds the orphans. Its uses below are
applications rather than rewrites: the test is written here as planning writes it, and the two
agree only up to unfolding. -/
theorem orphan_test_iff (d : Draft) (y : Directory) :
    (match y.kind.parent? with
      | some p => !d.dirs.any (fun z : Directory => z.kind = p)
      | none => false) = true ↔ d.Orphan y := by
  unfold Orphan
  cases y.kind.parent? <;> simp

theorem orphan_test_not_iff (d : Draft) (y : Directory) :
    (!match y.kind.parent? with
      | some p => !d.dirs.any (fun z : Directory => z.kind = p)
      | none => false) = true ↔ ¬ d.Orphan y := by
  rw [← orphan_test_iff d y]
  simp

/-- The directory that planning reports is the first one whose parent kind is missing. -/
theorem orphan?_eq_some_iff {x : Directory} :
    d.orphan? = some x ↔ ∃ i : Nat, d.dirs[i]? = some x ∧ d.Orphan x ∧
      ∀ j < i, ∀ y, d.dirs[j]? = some y → ¬ d.Orphan y := by
  unfold orphan?
  rw [List.find?_eq_some_iff_getElem]
  constructor
  · rintro ⟨hx, i, hi, rfl, hbefore⟩
    refine ⟨i, List.getElem?_eq_getElem hi, (orphan_test_iff d _).1 hx, fun j hj y hy => ?_⟩
    obtain ⟨hj', rfl⟩ := List.getElem?_eq_some_iff.1 hy
    exact (orphan_test_not_iff d _).1 (hbefore j hj)
  · rintro ⟨i, hx, horphan, hbefore⟩
    obtain ⟨hi, rfl⟩ := List.getElem?_eq_some_iff.1 hx
    exact ⟨(orphan_test_iff d _).2 horphan, i, hi, rfl, fun j hj =>
      (orphan_test_not_iff d _).2 (hbefore j hj _ (List.getElem?_eq_getElem (Nat.lt_trans hj hi)))⟩

/-- Planning reports no orphan exactly when every parent kind is present. -/
theorem orphan?_eq_none_iff : d.orphan? = none ↔ ∀ x ∈ d.dirs, ¬ d.Orphan x := by
  unfold orphan?
  rw [List.find?_eq_none]
  exact forall_congr' fun x => forall_congr' fun _ => not_congr (orphan_test_iff d x)

theorem indexOf?_of_mem {k : DirectoryKind} (h : k ∈ d.dirs.map (·.kind)) :
    ∃ j, d.indexOf? k = some j := by
  obtain ⟨y, hy, rfl⟩ := List.mem_map.1 h
  refine Option.isSome_iff_exists.1 ?_
  rw [indexOf?, List.findIdx?_isSome, List.any_eq_true]
  exact ⟨y, hy, by simp⟩

/-- A draft without orphans synthesizes into one whose every parent kind has its index, so its
plan fails only by arithmetic. -/
theorem ofDraft_synthesized_arith (hwf : d.Coherent) (horphan : d.orphan? = none) {d₂ : Draft}
    (hsyn : d.synthesize = .ok d₂) {root : Nat} {e : LayoutError}
    (h : Plan.ofDraft d₂ root = .error e) : ∃ a, e = .arith a := by
  have hkinds : d₂.dirs.map (·.kind) = d.dirs.map (·.kind) := by
    rw [synthesize_eq_ok hsyn hwf.distinctTags, Directory.kinds_sortFields_withPlaceholders]
  refine Plan.ofDraft_arith (fun x hx pk hpk => indexOf?_of_mem ?_) h
  have hxk : x.kind ∈ d.dirs.map (·.kind) := hkinds ▸ List.mem_map_of_mem hx
  obtain ⟨x₀, hx₀, hk⟩ := List.mem_map.1 hxk
  have hpresent : ¬ d.Orphan x₀ := orphan?_eq_none_iff.1 horphan x₀ hx₀
  obtain ⟨y, hy, hyk⟩ : ∃ y ∈ d.dirs, y.kind = pk := by
    by_contra hnone
    exact hpresent ⟨pk, hk ▸ hpk, fun y hy hyk => hnone ⟨y, hy, hyk⟩⟩
  rw [hkinds, ← hyk]
  exact List.mem_map_of_mem hy

/-- Past the root and parent checks, planning a coherent draft fails only by arithmetic. -/
theorem plan_error_arith (hwf : d.Coherent) {root : Nat} (hroot : d.indexOf? .root = some root)
    (horphan : d.orphan? = none) {e : LayoutError} (h : d.plan.2 = .error e) :
    ∃ a, e = .arith a := by
  rw [plan_eq_of_closed hroot horphan] at h
  rcases bind_eq_error.1 h with h | ⟨d₂, hsyn, h⟩
  · exact synthesize_arith hwf h
  · exact ofDraft_synthesized_arith hwf horphan hsyn h

theorem plan_error_missingRoot_iff (hwf : d.Coherent) :
    d.plan.2 = .error .missingRoot ↔ d.indexOf? .root = none := by
  constructor
  · intro h
    cases hroot : d.indexOf? .root with
    | none => rfl
    | some root =>
      cases horphan : d.orphan? with
      | some x => simp [plan, hroot, horphan] at h
      | none =>
        obtain ⟨a, ha⟩ := plan_error_arith hwf hroot horphan h
        cases ha
  · intro h
    simp [plan, h]

theorem plan_error_missingParent_iff (hwf : d.Coherent) {root : Nat}
    (hroot : d.indexOf? .root = some root) {k : DirectoryKind} :
    d.plan.2 = .error (.missingParent k) ↔ ∃ x, d.orphan? = some x ∧ x.kind = k := by
  cases horphan : d.orphan? with
  | some x => simp [plan, hroot, horphan, eq_comm]
  | none =>
    simp only [reduceCtorEq, false_and, exists_false, iff_false]
    intro h
    obtain ⟨a, ha⟩ := plan_error_arith hwf hroot horphan h
    cases ha

/-- Planning that fails for a missing root or parent gives the draft back as it was. -/
theorem plan_fst_of_error (hwf : d.Coherent) {e : LayoutError} (h : d.plan.2 = .error e)
    (he : e = .missingRoot ∨ ∃ k, e = .missingParent k) : d.plan.1 = d := by
  cases hroot : d.indexOf? .root with
  | none => simp [plan, hroot]
  | some root =>
    cases horphan : d.orphan? with
    | some x => simp [plan, hroot, horphan]
    | none =>
      obtain ⟨a, rfl⟩ := plan_error_arith hwf hroot horphan h
      rcases he with he | ⟨k, he⟩ <;> cases he

/-- `d₂` is `d` with the structural fields of every directory made anew: every directory keeps
its kind, byte order and thumbnail, and its fields, strictly sorted by tag, are its own fields
without structural tags, a LONG placeholder for each present child kind that has a pointer tag,
and for a thumbnail the placeholders of its offset and of its length. -/
structure Resynthesized (d d₂ : Draft) : Prop where
  byteOrder : d₂.byteOrder = d.byteOrder
  length : d₂.dirs.length = d.dirs.length
  dir : ∀ (i : Nat) (x : Directory), d.dirs[i]? = some x → ∃ x₂, d₂.dirs[i]? = some x₂ ∧
    x₂ = { x with fields := x₂.fields } ∧ (x₂.fields.map (·.tag.code.toNat)).Pairwise (· < ·) ∧
    x₂.fields.Perm (x.fields.filter (fun f => !f.tag.isStructural) ++
      Directory.pointerFields x.kind (d.dirs.map (·.kind)) d.byteOrder ++
      Directory.thumbnailFields x.thumbnail d.byteOrder)

/-- Fields with distinct tags sorted by tag are strictly sorted by tag. -/
theorem strictly_sorted_of_nodup {l : List Field}
    (hs : l.Pairwise fun a b => a.tag.code.toNat ≤ b.tag.code.toNat) (hd : (l.map (·.tag)).Nodup) :
    (l.map (·.tag.code.toNat)).Pairwise (· < ·) := by
  rw [List.pairwise_map]
  refine (hs.and (List.pairwise_map.1 hd)).imp fun ⟨hle, hne⟩ => Nat.lt_of_le_of_ne hle fun heq => ?_
  exact hne (congrArg Tag.mk (UInt16.toNat_inj.1 heq))

/-- Synthesis makes the structural fields of a coherent draft anew. -/
theorem synthesize_resynthesized (hwf : d.Coherent) {d₂ : Draft} (h : d.synthesize = .ok d₂) :
    d.Resynthesized d₂ := by
  rw [synthesize_eq_ok h hwf.distinctTags]
  refine ⟨rfl, List.length_map _, fun i x hx => ⟨_, by rw [List.getElem?_map, hx]; rfl, rfl, ?_, ?_⟩⟩
  · exact strictly_sorted_of_nodup (Directory.pairwise_mergeSort_tag _)
      (Directory.nodup_sortFields_withPlaceholders (hwf.distinctTags x (List.mem_of_getElem? hx))
        hwf.nodup_kinds)
  · exact List.mergeSort_perm _ _

end Draft

namespace Plan

/-- Every placement of the items of `p` at 32-bit offsets lets the pointers be written into `d₂`,
and every directory of `d` comes out filled. -/
def Resolves (p : Plan) (d d₂ : Draft) : Prop :=
  ∀ p', p.Placed p' → (∀ it ∈ p'.items, ∃ o, it.offset = some o ∧ o < Width.bits32.bound) →
    ∃ d₃, p'.patch d₂ = (d₃, .ok ()) ∧ d₃.byteOrder = d.byteOrder ∧
      d₃.dirs.length = d.dirs.length ∧
      ∀ (i : Nat) (x : Directory), d.dirs[i]? = some x → ∃ x', d₃.dirs[i]? = some x' ∧
        p'.Filled d i x x'

theorem offsetBytes_ok {o : ByteOrder} {v : Nat} (h : v < Width.bits32.bound) :
    offsetBytes o v = .ok (o.encode 4 v) := by
  have hw : checked (Width.bits32.narrow v) = .ok v := checked_eq_ok.2 (Width.narrow_ok_iff.2 ⟨h, rfl⟩)
  rw [offsetBytes, hw, ok_bind]
  rfl

variable {p : Plan}

/-- Writing pointers whose targets are placed at 32-bit offsets into fields that are present
succeeds. -/
theorem patchFrom_ok : ∀ {qs : List Pointer} {d : Draft},
    (∀ q ∈ qs, ∃ v, p.itemOffset q.target = .ok v ∧ v < Width.bits32.bound) →
    (∀ q ∈ qs, ∃ x, d.dirs[q.dir]? = some x ∧ q.tag ∈ x.fields.map (·.tag)) →
    ∃ d', p.patchFrom qs d = (d', .ok ())
  | [], d, _, _ => ⟨d, rfl⟩
  | q :: qs, d, htarget, hfield => by
    obtain ⟨v, hv, hlt⟩ := htarget q List.mem_cons_self
    obtain ⟨x, hx, htag⟩ := hfield q List.mem_cons_self
    unfold patchFrom
    rw [hv, ok_bind, offsetBytes_ok hlt]
    dsimp only
    split
    · rename_i hnone
      rw [hx, Option.bind_some] at hnone
      exact absurd hnone (find?_ne_none_of_mem_tags htag)
    · refine patchFrom_ok (fun q' hq' => htarget q' (List.mem_cons_of_mem q hq')) fun q' hq' => ?_
      obtain ⟨x', hx', htag'⟩ := hfield q' (List.mem_cons_of_mem q hq')
      exact mem_tags_modify hx' htag'

/-- Once the items of a plan are placed at 32-bit offsets, its pointers are written and every
directory is filled. -/
theorem plan_resolves {d d₂ : Draft} {p₀ : Plan} (hwf : d.Coherent)
    (hplan : d.plan = (d₂, .ok p₀)) : p₀.Resolves d d₂ := by
  intro p hp hall
  obtain ⟨root, -, -, -, hof⟩ := Draft.plan_eq_ok hplan
  have hpatch : ∃ d₃, p.patch d₂ = (d₃, .ok ()) := by
    refine patchFrom_ok (fun q hq => ?_) fun q hq => pointer_present hwf hplan (hp.pointers ▸ hq)
    obtain ⟨P, hpart⟩ : ∃ P, (p.items[q.target]?).map (·.part) = some P := by
      rcases hp.pointer hof hq with ⟨-, hpart⟩ | ⟨c, x, pk, -, -, -, -, hpart⟩
      · exact ⟨_, hpart⟩
      · exact ⟨_, hpart⟩
    obtain ⟨it, hit, -⟩ := Option.map_eq_some_iff.1 hpart
    obtain ⟨v, hv, hlt⟩ := hall it (List.mem_of_getElem? hit)
    exact ⟨v, itemOffset_eq_ok.2 ⟨it, hit, hv⟩, hlt⟩
  obtain ⟨d₃, hpatch⟩ := hpatch
  exact ⟨d₃, hpatch, filled hwf hplan hp hpatch⟩

end Plan

namespace Draft

variable {d : Draft}

/-- Planning a coherent draft fails for a missing root directory, then for the first directory
whose parent kind is missing, giving the draft back as it was in both cases, and otherwise only
by arithmetic. A plan comes with the draft's structural fields made anew; its items are, per
directory in order, the entry table, the out-of-line values in field order and the thumbnail;
the directories without a pointer tag are chained behind their parents; and once the items are
placed at 32-bit offsets the pointers are written and every directory is filled. -/
theorem plan_outcome (hwf : d.Coherent) :
    (d.plan.2 = .error .missingRoot ↔ d.indexOf? .root = none) ∧
    (d.indexOf? .root ≠ none → ∀ k, (d.plan.2 = .error (.missingParent k) ↔
      ∃ (i : Nat) (x : Directory), d.dirs[i]? = some x ∧ x.kind = k ∧ d.Orphan x ∧
        ∀ j < i, ∀ y, d.dirs[j]? = some y → ¬ d.Orphan y)) ∧
    (∀ e, d.plan.2 = .error e → (e = .missingRoot ∨ ∃ k, e = .missingParent k) → d.plan.1 = d) ∧
    (d.indexOf? .root ≠ none → (∀ x ∈ d.dirs, ¬ d.Orphan x) →
      ∀ e, d.plan.2 = .error e → ∃ a, e = .arith a) ∧
    ∀ d₂ p, d.plan = (d₂, .ok p) →
      d.Resynthesized d₂ ∧ d.indexOf? .root = some p.root ∧ p.byteOrder = d.byteOrder ∧
      p.items = d₂.dirs.zipIdx.flatMap (fun xi => Plan.dirItems xi.2 xi.1) ∧
      p.chain = d₂.dirs.zipIdx.filterMap (fun xi => Plan.chainLink d₂ xi.1 xi.2) ∧
      p.Resolves d d₂ := by
  refine ⟨plan_error_missingRoot_iff hwf, fun hroot k => ?_, fun e h he => plan_fst_of_error hwf h he,
    fun hroot hclosed e h => ?_, fun d₂ p hplan => ?_⟩
  · obtain ⟨root, hroot⟩ := Option.ne_none_iff_exists'.1 hroot
    rw [plan_error_missingParent_iff hwf hroot]
    constructor
    · rintro ⟨x, hx, rfl⟩
      obtain ⟨i, hi, horphan, hbefore⟩ := orphan?_eq_some_iff.1 hx
      exact ⟨i, x, hi, rfl, horphan, hbefore⟩
    · rintro ⟨i, x, hi, rfl, horphan, hbefore⟩
      exact ⟨x, orphan?_eq_some_iff.2 ⟨i, hi, horphan, hbefore⟩, rfl⟩
  · obtain ⟨root, hroot⟩ := Option.ne_none_iff_exists'.1 hroot
    exact plan_error_arith hwf hroot (orphan?_eq_none_iff.2 hclosed) h
  · obtain ⟨root, hroot, -, hsyn, hof⟩ := plan_eq_ok hplan
    refine ⟨synthesize_resynthesized hwf hsyn, by rw [Plan.ofDraft_root hof]; exact hroot, ?_,
      Plan.ofDraft_items hof, (Plan.ofDraft_pointers hof).2.2, Plan.plan_resolves hwf hplan⟩
    rw [Plan.ofDraft_byteOrder hof, (synthesize_resynthesized hwf hsyn).byteOrder]

/-- A root with a six-byte value and an empty Exif directory: planning succeeds, the root gets the
placeholder of the Exif pointer after its own field, and the items are the root table of two
entries, the value and the Exif table, which the pointer targets. -/
theorem plan_outcome_exif :
    ∃ d₂ p, (⟨.little, [⟨.root, .little, [.undefined ⟨270⟩ ⟨#[1, 2, 3, 4, 5, 6]⟩], none⟩,
        ⟨.exif, .little, [], none⟩]⟩ : Draft).plan = (d₂, .ok p) ∧
      p.items = [⟨.table 0, 30, none⟩, ⟨.value 0 0, 6, none⟩, ⟨.table 1, 6, none⟩] ∧
      p.pointers = [⟨0, Tag.exifPointer, 2⟩] ∧
      Resynthesized ⟨.little, [⟨.root, .little, [.undefined ⟨270⟩ ⟨#[1, 2, 3, 4, 5, 6]⟩], none⟩,
        ⟨.exif, .little, [], none⟩]⟩ d₂ ∧
      (⟨.little, [⟨.root, .little, [.undefined ⟨270⟩ ⟨#[1, 2, 3, 4, 5, 6]⟩], none⟩,
        ⟨.exif, .little, [], none⟩]⟩ : Draft).indexOf? .root = some p.root ∧
      p.byteOrder = .little ∧
      p.items = d₂.dirs.zipIdx.flatMap (fun xi => Plan.dirItems xi.2 xi.1) ∧
      p.chain = d₂.dirs.zipIdx.filterMap (fun xi => Plan.chainLink d₂ xi.1 xi.2) ∧
      p.Resolves ⟨.little, [⟨.root, .little, [.undefined ⟨270⟩ ⟨#[1, 2, 3, 4, 5, 6]⟩], none⟩,
        ⟨.exif, .little, [], none⟩]⟩ d₂ := by
  have hcoh : Coherent ⟨.little, [⟨.root, .little, [.undefined ⟨270⟩ ⟨#[1, 2, 3, 4, 5, 6]⟩], none⟩,
      ⟨.exif, .little, [], none⟩]⟩ := ⟨by decide, by simp, by simp, by simp⟩
  have hsyn : (⟨.little, [⟨.root, .little, [.undefined ⟨270⟩ ⟨#[1, 2, 3, 4, 5, 6]⟩], none⟩,
      ⟨.exif, .little, [], none⟩]⟩ : Draft).synthesize =
      .ok ⟨.little, [⟨.root, .little, [.undefined ⟨270⟩ ⟨#[1, 2, 3, 4, 5, 6]⟩,
        .long Tag.exifPointer 0 .little], none⟩, ⟨.exif, .little, [], none⟩]⟩ := by
    simp [synthesize, Directory.synthesize, Directory.sortFields, List.mergeSort, structuralTags,
      Directory.removeField, Directory.takeField, Directory.addPointerField, Directory.addField,
      DirectoryKind.parent?, DirectoryKind.pointerTag?, Field.undefined, Field.raw, Field.long,
      Tag.exifPointer, Tag.gpsPointer, Tag.interopPointer, Tag.thumbnailOffset, Tag.thumbnailLength,
      pure, Except.pure]
  have hplan : (⟨.little, [⟨.root, .little, [.undefined ⟨270⟩ ⟨#[1, 2, 3, 4, 5, 6]⟩], none⟩,
      ⟨.exif, .little, [], none⟩]⟩ : Draft).plan =
      (⟨.little, [⟨.root, .little, [.undefined ⟨270⟩ ⟨#[1, 2, 3, 4, 5, 6]⟩,
        .long Tag.exifPointer 0 .little], none⟩, ⟨.exif, .little, [], none⟩]⟩,
       .ok ⟨.little, [⟨.table 0, 30, none⟩, ⟨.value 0 0, 6, none⟩, ⟨.table 1, 6, none⟩],
         [⟨0, Tag.exifPointer, 2⟩], [], 0⟩) := by
    rw [plan_eq_of_closed (show _ = some 0 by decide) (by decide), synthesizeIn_of_ok hsyn, hsyn, ok_bind]
    rfl
  exact ⟨_, _, hplan, rfl, rfl, (plan_outcome hcoh).2.2.2.2 _ _ hplan⟩

end Draft

end TiffLayout
