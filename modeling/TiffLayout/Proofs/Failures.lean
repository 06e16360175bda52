import TiffLayout.Proofs.Frame
import TiffLayout.Proofs.Similar
/-! The failures of the writers: on an edited draft they fail only because of their input, and
none of the failures that guard their own bookkeeping occurs. -/
namespace TiffLayout

open Emission

namespace LayoutError

/-- The failures of a write that its input causes. -/
inductive OfInput : LayoutError → Prop
  | analysis (e : ReadError) : OfInput (.analysis e)
  | byteOrderMismatch (expected actual : ByteOrder) : OfInput (.byteOrderMismatch expected actual)
  | missingRoot : OfInput .missingRoot
  | missingParent (k : DirectoryKind) : OfInput (.missingParent k)
  | arith (e : ArithError) : OfInput (.arith e)

end LayoutError

/-- A computation whose every failure is one that its input causes. -/
def FailsOfInput {α : Type} (r : Except LayoutError α) : Prop :=
  ∀ e, r = .error e → e.OfInput

namespace FailsOfInput

variable {α β : Type}

theorem ok (a : α) : FailsOfInput (.ok a : Except LayoutError α) := fun _ h => by cases h

theorem bind {x : Except LayoutError α} {f : α → Except LayoutError β} (hx : FailsOfInput x)
    (hf : ∀ a, x = .ok a → FailsOfInput (f a)) : FailsOfInput (x >>= f) := by
  intro e h
  rcases bind_eq_error.1 h with h | ⟨a, ha, h⟩
  · exact hx e h
  · exact hf a ha e h

theorem throw {e : LayoutError} (he : e.OfInput) : FailsOfInput (throw e : Except LayoutError α) := by
  intro e' h
  cases h
  exact he

theorem of_arith {r : Except LayoutError α} (h : ∀ e, r = .error e → ∃ a, e = .arith a) :
    FailsOfInput r := by
  intro e he
  obtain ⟨a, rfl⟩ := h e he
  exact .arith a

theorem of_checked (r : Except ArithError α) : FailsOfInput (checked r) :=
  of_arith fun _ h => checked_eq_error h

theorem map {x : Except LayoutError α} (g : α → β) (hx : FailsOfInput x) :
    FailsOfInput (x.map g) := by
  intro e h
  cases x with
  | error e' =>
    simp only [Except.map, Except.error.injEq] at h
    exact h ▸ hx e' rfl
  | ok a => cases h

theorem mapM {f : α → Except LayoutError β} {l : List α} (hf : ∀ a ∈ l, FailsOfInput (f a)) :
    FailsOfInput (l.mapM f) := by
  intro e h
  obtain ⟨a, ha, he⟩ := mapM_eq_error h
  exact hf a ha e he

theorem foldlM {f : β → α → Except LayoutError β} (hf : ∀ b a, FailsOfInput (f b a)) (l : List α)
    (b : β) : FailsOfInput (l.foldlM f b) :=
  (foldlM_induction (fun _ _ => True) LayoutError.OfInput
    (fun b a _ _ => ⟨fun _ _ => trivial, hf b a⟩) trivial).2

end FailsOfInput

namespace Plan

theorem tableLength?_fails (n : Nat) : FailsOfInput (tableLength? n) :=
  .bind (.of_checked _) fun _ _ => .bind (.of_checked _) fun _ _ => .of_checked _

theorem valueItems_fails (i : Nat) (fields : List Field) : FailsOfInput (valueItems i fields) :=
  .mapM fun ⟨_, _⟩ _ => .bind (.of_checked _) fun _ _ => .ok _

theorem thumbnailItem_fails (i : Nat) (x : Directory) (id : Nat) :
    FailsOfInput (thumbnailItem i x id) := by
  unfold thumbnailItem
  split
  · exact .bind (.of_checked _) fun _ _ => .ok _
  · exact .ok _

/-- Linking a directory fails only when its parent is missing. -/
theorem link_fails (d : Draft) (x : Directory) (i tableId : Nat) :
    FailsOfInput (link d x i tableId) := by
  unfold link
  split
  · split
    · split <;> exact .ok _
    · intro e h
      cases h
      exact .missingParent _
  · exact .ok _

theorem gather_fails (d : Draft) (g : Gather) (x : Directory) (i : Nat) :
    FailsOfInput (gather d g x i) :=
  .bind (.of_checked _) fun n _ => .bind (tableLength?_fails n) fun _ _ =>
    .bind (valueItems_fails i x.fields) fun _ _ => .bind (thumbnailItem_fails _ _ _) fun ⟨_, _⟩ _ =>
      .bind (link_fails _ _ _ _) fun ⟨_, _⟩ _ => .ok _

theorem ofDraft_fails (d : Draft) (root : Nat) : FailsOfInput (ofDraft d root) :=
  .bind (.foldlM (fun g ⟨x, i⟩ => gather_fails d g x i) _ _) fun _ _ => .ok _

end Plan

/-- Synthesis of a directory with distinct tags, among distinct kinds, fails only when a
thumbnail is too long for a 32-bit length. -/
theorem Directory.synthesize_fails {x : Directory} {present : List DirectoryKind} {o : ByteOrder}
    (hx : (x.fields.map (·.tag)).Nodup) (hp : present.Nodup) :
    FailsOfInput (x.synthesize present o) := by
  rw [Directory.synthesize_eq hx hp]
  split
  · exact .map _ (.of_checked _)
  · exact .ok _

namespace Draft

variable {d : Draft}

theorem synthesize_fails (hwf : d.Coherent) : FailsOfInput d.synthesize :=
  .bind (.mapM fun x hx => .bind (Directory.synthesize_fails (hwf.distinctTags x hx)
    hwf.nodup_kinds) fun _ _ => .ok _) fun _ _ => .ok _

/-- Planning fails only for a missing root or parent, or by arithmetic. -/
theorem plan_fails (hwf : d.Coherent) : FailsOfInput d.plan.2 := by
  cases hroot : d.indexOf? .root with
  | none =>
    intro e h
    simp only [plan, hroot, Except.error.injEq] at h
    rw [← h]
    exact .missingRoot
  | some root =>
    cases horphan : d.orphan? with
    | some x =>
      intro e h
      simp only [plan, hroot, horphan, Except.error.injEq] at h
      rw [← h]
      exact .missingParent _
    | none =>
      rw [plan_eq_of_closed hroot horphan]
      exact .bind (synthesize_fails hwf) fun d' _ => Plan.ofDraft_fails _ _

end Draft

namespace Emission

/-- Output stops only at a failing piece. -/
theorem mem_of_stop : ∀ {ps : List (Except LayoutError (List UInt8))} {e : LayoutError},
    (ofPieces ps).stop = some e → .error e ∈ ps
  | [], _, h => by simp [ofPieces] at h
  | .ok _ :: _, _, h => List.mem_cons_of_mem _ (mem_of_stop h)
  | .error _ :: _, _, h => by
    simp only [ofPieces, Option.some.injEq] at h
    subst h
    exact List.mem_cons_self

end Emission

namespace Buffer

/-- Emitting output fails by an overrun or by a failing piece. -/
theorem emitAt_eq_error {buf : ByteArray} {o : Nat} {ps : List (Except LayoutError (List UInt8))}
    {e : LayoutError} (h : (emitAt buf o ps).2 = .error e) : e = .overrun ∨ .error e ∈ ps := by
  unfold emitAt at h
  dsimp only at h
  split at h
  · exact Or.inl (Except.error.inj h).symm
  · split at h
    · rename_i err hstop
      rw [Except.error.inj h] at hstop
      exact Or.inr (Emission.mem_of_stop hstop)
    · cases h

/-- Output that fits the room after its offset fails only as one of its pieces. -/
theorem emitAt_fails {buf : ByteArray} {o n : Nat} {ps : List (Except LayoutError (List UInt8))}
    (hemit : Emits n ps) (hroom : o + n ≤ buf.size) (hps : ∀ r ∈ ps, FailsOfInput r) :
    FailsOfInput (emitAt buf o ps).2 := by
  intro e h
  rcases emitAt_eq_error h with rfl | hmem
  · exact absurd h (emitAt_ne_overrun hemit hroom)
  · exact hps _ hmem e rfl

end Buffer

theorem Plan.offsetBytes_fails (o : ByteOrder) (n : Nat) : FailsOfInput (Plan.offsetBytes o n) :=
  .bind (.of_checked _) fun _ _ => .ok _

/-- Writing the header into a buffer that holds it fails only for a root offset past 32 bits. -/
theorem writeHeader_fails {buf : ByteArray} {o : ByteOrder} {root : Nat} (h : headerSize ≤ buf.size) :
    FailsOfInput (writeHeader buf o root) := by
  have hne : writeHeader buf o root ≠ .error .overrun := writeHeader_ne_overrun h
  intro e he
  unfold writeHeader at he hne
  split at he
  · cases he
  · rename_i buf' e' hemit
    cases he
    rw [hemit] at hne
    rcases Buffer.emitAt_eq_error (congrArg Prod.snd hemit) with rfl | hmem
    · exact absurd rfl hne
    · simp only [List.mem_cons, reduceCtorEq, List.not_mem_nil, or_false, false_or] at hmem
      exact Plan.offsetBytes_fails o root _ hmem.symm

namespace Compact

/-- Packing unplaced items from an even start fails only by arithmetic: every item lands at an
even offset, since each is padded to an even length. -/
theorem packFrom_fails : ∀ {start : Nat} {its : List Item}, start % 2 = 0 →
    (∀ it ∈ its, it.offset = none) → FailsOfInput (packFrom start its)
  | _, [], _, _ => .ok _
  | start, it :: its, heven, hnone => by
    have hplace : it.place start = .ok { it with offset := some start } :=
      Item.place_ok_iff.2 ⟨hnone it List.mem_cons_self, heven, rfl⟩
    unfold packFrom
    rw [hplace, ok_bind]
    refine .bind (.of_checked _) fun next₁ h₁ => .bind (.of_checked _) fun next₂ h₂ => ?_
    obtain ⟨-, rfl⟩ := Width.add_ok_iff.1 (checked_eq_ok.1 h₁)
    obtain ⟨-, rfl⟩ := Width.add_ok_iff.1 (checked_eq_ok.1 h₂)
    have heven' : (start + it.length + Width.paddingToEven it.length) % 2 = 0 := by
      simp only [Width.paddingToEven]
      omega
    refine .bind (packFrom_fails heven' fun it' h => hnone it' (List.mem_cons_of_mem it h))
      fun r _ => ?_
    cases r
    exact .ok _

end Compact

namespace Plan

/-- Every item of the plan has its offset. -/
def AllPlaced (p : Plan) : Prop := ∀ (id : Nat) (it : Item), p.items[id]? = some it → it.offset.isSome

section AllPlaced

variable {p : Plan}

theorem AllPlaced.itemOffset (h : p.AllPlaced) {id : Nat} {it : Item} (hit : p.items[id]? = some it) :
    ∃ v, p.itemOffset id = .ok v := by
  obtain ⟨v, hv⟩ := Option.isSome_iff_exists.1 (h id it hit)
  exact ⟨v, itemOffset_eq_ok.2 ⟨it, hit, hv⟩⟩

/-- The item of a part that the plan has is found, with its offset. -/
theorem AllPlaced.find (h : p.AllPlaced) {P : Part} (hP : P ∈ p.items.map (·.part)) :
    ∃ id v, p.items.findIdx? (·.part = P) = some id ∧ p.itemOffset id = .ok v := by
  have hsome : (p.items.findIdx? (·.part = P)).isSome := by
    obtain ⟨it, hit, rfl⟩ := List.mem_map.1 hP
    rw [List.findIdx?_isSome, List.any_eq_true]
    exact ⟨it, hit, by simp⟩
  obtain ⟨id, hid⟩ := Option.isSome_iff_exists.1 hsome
  obtain ⟨it, hit, -⟩ := findIdx?_part hid
  obtain ⟨v, hv⟩ := h.itemOffset hit
  exact ⟨id, v, hid, hv⟩

theorem AllPlaced.dirOffset (h : p.AllPlaced) {i : Nat} (hP : Part.table i ∈ p.items.map (·.part)) :
    ∃ v, p.dirOffset i = .ok v := by
  obtain ⟨id, v, hid, hv⟩ := h.find hP
  exact ⟨v, by simp only [Plan.dirOffset, tableItem?, hid, hv]⟩

end AllPlaced

section Parts

variable {d : Draft} {root : Nat} {p : Plan}

theorem ofDraft_mem_value (h : ofDraft d root = .ok p) {i j : Nat} {x : Directory} {f : Field}
    (hx : d.dirs[i]? = some x) (hf : x.fields[j]? = some f) (hout : f.outOfLine) :
    Part.value i j ∈ p.items.map (·.part) := by
  rw [ofDraft_items h]
  refine List.mem_map.2 ⟨⟨.value i j, f.bytes.size, f.keptOffset⟩,
    List.mem_flatMap.2 ⟨(x, i), List.mk_mem_zipIdx_iff_getElem?.2 hx, ?_⟩, rfl⟩
  exact List.mem_cons_of_mem _ (List.mem_append_left _ (List.mem_map.2
    ⟨(f, j), List.mem_filter.2 ⟨List.mk_mem_zipIdx_iff_getElem?.2 hf, hout⟩, rfl⟩))

/-- A directory is chained only behind another of the draft. -/
theorem ofDraft_next? (h : ofDraft d root = .ok p) {i n : Nat} (hn : p.next? i = some n) :
    ∃ y, d.dirs[n]? = some y := by
  obtain ⟨e, he, rfl⟩ := Option.map_eq_some_iff.1 hn
  have hc := List.mem_of_find?_eq_some he
  rw [(ofDraft_pointers h).2.2, List.mem_filterMap] at hc
  obtain ⟨⟨y, j⟩, hyj, hlink⟩ := hc
  simp only [chainLink, Option.bind_eq_some_iff] at hlink
  obtain ⟨pk, -, par, -, hlink⟩ := hlink
  split at hlink
  · rw [← Option.some.inj hlink]
    exact ⟨y, List.mk_mem_zipIdx_iff_getElem?.1 hyj⟩
  · cases hlink

end Parts

section Written

variable {d d₂ : Draft} {p₀ p : Plan}

/-- Every pointer of a plan names a field of the synthesized draft: the offset placeholder of a
directory's thumbnail, or the placeholder of a child kind in its parent. -/
theorem pointer_present (hwf : d.Coherent) (hplan : d.plan = (d₂, .ok p₀)) {q : Pointer}
    (hq : q ∈ p₀.pointers) : ∃ x, d₂.dirs[q.dir]? = some x ∧ q.tag ∈ x.fields.map (·.tag) := by
  obtain ⟨root, -, -, hsyn, hof⟩ := Draft.plan_eq_ok hplan
  have hd₂ := Draft.synthesize_eq_ok hsyn hwf.distinctTags
  have hkey : (q.dir, q.tag) ∈ p₀.pointers.map fun q => (q.dir, q.tag) := List.mem_map_of_mem hq
  rw [(ofDraft_pointers hof).2.1] at hkey
  rcases List.mem_append.1 hkey with hthumb | hptr
  · obtain ⟨⟨x, i⟩, hxi, heq⟩ := List.mem_map.1 hthumb
    obtain ⟨hmem, hsome⟩ := List.mem_filter.1 hxi
    obtain ⟨rfl, htag⟩ := Prod.mk.inj heq
    have hx := List.mk_mem_zipIdx_iff_getElem?.1 hmem
    refine ⟨x, hx, ?_⟩
    rw [hd₂, List.getElem?_map, Option.map_eq_some_iff] at hx
    obtain ⟨y, -, rfl⟩ := hx
    obtain ⟨th, hth⟩ := Option.isSome_iff_exists.1 hsome
    exact List.mem_map.2 ⟨_, Directory.mem_sortFields_withPlaceholders.2
      (Or.inr (Or.inr (Directory.mem_thumbnailFields.2 ⟨th, hth, Or.inl rfl⟩))), htag⟩
  · obtain ⟨x, hx, hkx⟩ := List.mem_filterMap.1 hptr
    simp only [pointerKey, Option.bind_eq_some_iff, Option.map_eq_some_iff, Prod.mk.injEq] at hkx
    obtain ⟨pk, hpk, par, hpar, t, ht, rfl, rfl⟩ := hkx
    obtain ⟨y, hy, hyk⟩ := Draft.indexOf?_eq_some hpar
    refine ⟨y, hy, ?_⟩
    rw [hd₂, List.getElem?_map, Option.map_eq_some_iff] at hy
    obtain ⟨y₀, -, rfl⟩ := hy
    have hpresent : x.kind ∈ d.dirs.map (·.kind) := plan_kinds hwf hplan ▸ List.mem_map_of_mem hx
    have hparent : x.kind.parent? = some y₀.kind := by
      rw [hpk]
      exact congrArg some hyk.symm
    exact List.mem_map.2 ⟨_, Directory.mem_sortFields_withPlaceholders.2
      (Or.inr (Or.inl (Directory.mem_pointerFields.2 ⟨x.kind, hpresent, hparent, q.tag, ht, rfl⟩))), rfl⟩

/-- A directory holding a tag finds a field with it. -/
theorem find?_ne_none_of_mem_tags {x : Directory} {t : Tag} (ht : t ∈ x.fields.map (·.tag)) :
    x.find? t ≠ none := by
  obtain ⟨f, hf, hft⟩ := List.mem_map.1 ht
  simp only [Directory.find?, ne_eq, List.find?_eq_none, decide_eq_true_eq, not_forall, not_not]
  exact ⟨f, hf, hft⟩

/-- Writing one pointer keeps the tags of every directory. -/
theorem mem_tags_modify {dirs : List Directory} {j i : Nat} {t t' : Tag} {bytes : List UInt8}
    {x : Directory} (hx : dirs[i]? = some x) (ht : t ∈ x.fields.map (·.tag)) :
    ∃ x', (dirs.modify j (·.updateField t' (·.setBytes 1 ⟨bytes.toArray⟩)))[i]? = some x' ∧
      t ∈ x'.fields.map (·.tag) := by
  refine ⟨_, by rw [List.getElem?_modify, hx]; rfl, ?_⟩
  split
  · simp only [Directory.updateField]
    rw [Directory.map_updateField_go (g := fun f : Field => f.setBytes 1 ⟨bytes.toArray⟩)
      fun _ => rfl]
    exact ht
  · exact ht

/-- Writing pointers whose targets are placed into fields that are present fails only for an
offset past 32 bits. Writing one pointer keeps the tags of every directory, so the fields the
others name stay present. -/
theorem patchFrom_fails : ∀ {qs : List Pointer} {d : Draft},
    (∀ q ∈ qs, ∃ v, p.itemOffset q.target = .ok v) →
    (∀ q ∈ qs, ∃ x, d.dirs[q.dir]? = some x ∧ q.tag ∈ x.fields.map (·.tag)) →
    FailsOfInput (p.patchFrom qs d).2
  | [], _, _, _ => .ok _
  | q :: qs, d, htarget, hfield => by
    obtain ⟨v, hv⟩ := htarget q List.mem_cons_self
    obtain ⟨x, hx, htag⟩ := hfield q List.mem_cons_self
    unfold patchFrom
    rw [hv, ok_bind]
    split
    · rename_i e he
      intro e' h
      cases h
      exact offsetBytes_fails _ _ e he
    · rename_i bytes hbytes
      split
      · rename_i hnone
        rw [hx, Option.bind_some] at hnone
        exact absurd hnone (find?_ne_none_of_mem_tags htag)
      · refine patchFrom_fails (fun q' hq' => htarget q' (List.mem_cons_of_mem q hq')) fun q' hq' => ?_
        obtain ⟨x', hx', htag'⟩ := hfield q' (List.mem_cons_of_mem q hq')
        exact mem_tags_modify hx' htag'

/-- Writing the pointers of a planned draft whose items are all placed fails only for an offset
past 32 bits. -/
theorem patch_fails (hwf : d.Coherent) (hplan : d.plan = (d₂, .ok p₀)) (hp : p₀.Placed p)
    (hall : p.AllPlaced) : FailsOfInput (p.patch d₂).2 := by
  obtain ⟨root, -, -, -, hof⟩ := Draft.plan_eq_ok hplan
  refine patchFrom_fails (fun q hq => ?_) fun q hq => pointer_present hwf hplan (hp.pointers ▸ hq)
  have hpart : ∃ P, (p.items[q.target]?).map (·.part) = some P := by
    rcases hp.pointer hof hq with ⟨-, hpart⟩ | ⟨c, x, pk, -, -, -, -, hpart⟩
    · exact ⟨_, hpart⟩
    · exact ⟨_, hpart⟩
  obtain ⟨P, hpart⟩ := hpart
  obtain ⟨it, hit, -⟩ := Option.map_eq_some_iff.1 hpart
  exact hall.itemOffset hit

theorem Placed.mem_table (hplan : d.plan = (d₂, .ok p₀)) (hp : p₀.Placed p)
    {i : Nat} {x : Directory} (hx : d₂.dirs[i]? = some x) : Part.table i ∈ p.items.map (·.part) := by
  obtain ⟨root, -, -, -, hof⟩ := Draft.plan_eq_ok hplan
  rw [hp.parts]
  exact ofDraft_mem_table hof hx

/-- The root's table of a planned draft whose items are all placed has its offset. -/
theorem rootOffset_ok (hwf : d.Coherent) (hplan : d.plan = (d₂, .ok p₀)) (hp : p₀.Placed p)
    (hall : p.AllPlaced) : ∃ v, p.rootOffset = .ok v := by
  obtain ⟨root, hroot, -, -, hof⟩ := Draft.plan_eq_ok hplan
  obtain ⟨x, hx, -⟩ := Draft.indexOf?_eq_some hroot
  unfold rootOffset
  rw [hp.root, ofDraft_root hof]
  exact hall.dirOffset (hp.mem_table hplan (plan_dir hwf hplan hx))

/-- An out-of-line field of a resized directory was out of line when planned, so the plan has an
item for its value. -/
theorem valueItem?_of_outOfLine (hplan : d.plan = (d₂, .ok p₀)) (hp : p₀.Placed p) {i j : Nat}
    {x y : Directory} (hx : d₂.dirs[i]? = some x) (hxy : x.Resized y) {f : Field}
    (hf : y.fields[j]? = some f) (hout : f.outOfLine) : ∃ id, p.valueItem? i j = some id := by
  obtain ⟨root, -, -, -, hof⟩ := Draft.plan_eq_ok hplan
  obtain ⟨f₀, hf₀⟩ : ∃ f₀, x.fields[j]? = some f₀ :=
    ⟨_, List.getElem?_eq_getElem (hxy.length ▸ (List.getElem?_eq_some_iff.1 hf).1)⟩
  have hsize := hxy.field j f₀ f hf₀ hf
  have hout₀ : f₀.outOfLine := by
    simp only [Field.outOfLine, decide_eq_true_eq] at hout ⊢
    omega
  have hmem := ofDraft_mem_value hof hx hf₀ hout₀
  rw [← hp.parts] at hmem
  obtain ⟨it, hit, hpart⟩ := List.mem_map.1 hmem
  refine Option.isSome_iff_exists.1 ?_
  rw [valueItem?, List.findIdx?_isSome]
  exact List.any_eq_true.2 ⟨it, hit, by simp [hpart]⟩

/-- The offset of an out-of-line value in the patched draft is found: the plan has the value's
item, which is placed. -/
theorem slotPiece_fails (hplan : d.plan = (d₂, .ok p₀)) (hp : p₀.Placed p)
    (hall : p.AllPlaced) {i j : Nat} {x y : Directory} (hx : d₂.dirs[i]? = some x)
    (hxy : x.Resized y) {f' : Field} (hf' : y.fields[j]? = some f') :
    FailsOfInput (p.slotPiece i j f') := by
  unfold slotPiece
  split
  · rename_i hout
    obtain ⟨id, hid⟩ := valueItem?_of_outOfLine hplan hp hx hxy hf' hout
    obtain ⟨it, hit, -⟩ := findIdx?_part hid
    obtain ⟨v, hv⟩ := hall.itemOffset hit
    simp only [hid, hv, ok_bind]
    exact offsetBytes_fails _ _
  · exact .ok _

theorem nextPiece_fails (hplan : d.plan = (d₂, .ok p₀)) (hp : p₀.Placed p)
    (hall : p.AllPlaced) (i : Nat) : FailsOfInput (p.nextPiece i) := by
  obtain ⟨root, -, -, -, hof⟩ := Draft.plan_eq_ok hplan
  unfold nextPiece
  split
  · rename_i n hn
    rw [hp.next?_eq] at hn
    obtain ⟨y, hy⟩ := ofDraft_next? hof hn
    obtain ⟨v, hv⟩ := hall.dirOffset (hp.mem_table hplan hy)
    rw [hv, ok_bind]
    exact offsetBytes_fails _ _
  · exact .ok _

theorem tablePieces_fails (hplan : d.plan = (d₂, .ok p₀)) (hp : p₀.Placed p)
    (hall : p.AllPlaced) {i : Nat} {x y : Directory} (hx : d₂.dirs[i]? = some x)
    (hxy : x.Resized y) : ∀ r ∈ p.tablePieces i y, FailsOfInput r := by
  intro r hr
  simp only [tablePieces, List.mem_cons, List.mem_append, List.mem_flatMap, List.not_mem_nil,
    or_false] at hr
  rcases hr with (rfl | ⟨⟨f', j⟩, hfj, rfl | rfl⟩) | rfl
  · exact .map _ (.of_checked _)
  · exact .ok _
  · exact slotPiece_fails hplan hp hall hx hxy (List.mk_mem_zipIdx_iff_getElem?.1 hfj)
  · exact nextPiece_fails hplan hp hall i

/-- Every item of a planned, placed and patched draft fails only by arithmetic: its part names a
directory, field or thumbnail of the patched draft, and every offset it needs is placed. -/
theorem pieces_fails (hwf : d.Coherent) (hplan : d.plan = (d₂, .ok p₀)) (hp : p₀.Placed p)
    (hall : p.AllPlaced) {d₃ : Draft} (hpatch : p.patch d₂ = (d₃, .ok ())) {id : Nat} {it : Item}
    (hit : p.items[id]? = some it) : ∀ r ∈ p.pieces it d₃, FailsOfInput r := by
  have hres := (patch_resized hpatch).1
  obtain ⟨-, -, hdirs⟩ := patch_patched hwf hplan hp hpatch
  obtain ⟨it₀, hit₀, hpart⟩ : ∃ it₀, p₀.items[id]? = some it₀ ∧ it₀.part = it.part := by
    have h := hp.part id
    rw [hit] at h
    exact Option.map_eq_some_iff.1 h.symm
  have hsized := (Draft.plan_items hplan it₀ (List.mem_of_getElem? hit₀)).1
  unfold Item.Sized at hsized
  rw [hpart] at hsized
  rcases it with ⟨part, length, offset⟩
  unfold pieces
  cases part with
  | table i =>
    obtain ⟨x, hx, -⟩ := hsized
    obtain ⟨y, hy, -⟩ := hdirs i x hx
    simp only [hy]
    exact tablePieces_fails hplan hp hall hx (hres.dir i x y hx hy)
  | value i j =>
    obtain ⟨x, f, hx, hf, -, -⟩ := hsized
    obtain ⟨y, hy, -⟩ := hdirs i x hx
    obtain ⟨f', hf'⟩ : ∃ f', y.fields[j]? = some f' := by
      have hj := (List.getElem?_eq_some_iff.1 hf).1
      exact ⟨_, List.getElem?_eq_getElem ((hres.dir i x y hx hy).length ▸ hj)⟩
    simp only [hy, Option.bind_some, hf', List.mem_singleton, forall_eq]
    exact .ok _
  | thumbnail i =>
    obtain ⟨x, t, hx, ht, -⟩ := hsized
    obtain ⟨y, hy, -⟩ := hdirs i x hx
    have hyt : y.thumbnail = some t := (hres.dir i x y hx hy).thumbnail.trans ht
    simp only [hy, Option.bind_some, hyt, List.mem_singleton, forall_eq]
    exact .ok _

end Written

/-- Writing items, each placed with room for its length in a buffer of `n` bytes, fails only as
one of the items' pieces. -/
theorem writeItems_fails {p : Plan} {d : Draft} {n : Nat}
    (hpieces : ∀ (id : Nat) (it : Item), p.items[id]? = some it → ∀ r ∈ p.pieces it d, FailsOfInput r) :
    ∀ {ids : List Nat} {buf : ByteArray}, buf.size = n →
      (∀ id ∈ ids, ∃ (it : Item) (o : Nat), p.items[id]? = some it ∧ it.offset = some o ∧ o + it.length ≤ n ∧
        Emits it.length (p.pieces it d)) →
      FailsOfInput (p.writeItems d ids buf)
  | [], _, _, _ => .ok _
  | id :: ids, buf, hsize, hids => by
    obtain ⟨it, o, hit, ho, hroom, hemit⟩ := hids id List.mem_cons_self
    have hwrite : p.writeItem id d buf = Buffer.emitAt buf o (p.pieces it d) := by
      simp only [writeItem, hit, ho]
    have hfails := Buffer.emitAt_fails hemit (hsize ▸ hroom) (hpieces id it hit)
    have hsize' := size_writeItem p id d buf
    rw [hwrite] at hsize'
    unfold writeItems
    rw [hwrite]
    split
    · rename_i buf' h
      rw [h] at hsize'
      exact writeItems_fails hpieces (hsize'.trans hsize) fun id' h' => hids id' (List.mem_cons_of_mem id h')
    · rename_i e h
      intro e' he
      cases he
      exact hfails e (by rw [h])

end Plan

namespace Compact

/-- A draft without kept offsets plans only unplaced items. -/
theorem plan_unplaced {d d₂ : Draft} {p₀ : Plan} (hd : ∀ x ∈ d.dirs, ∀ f ∈ x.fields, f.keptOffset = none)
    (hplan : d.plan = (d₂, .ok p₀)) : ∀ it ∈ p₀.items, it.offset = none := by
  intro it hit
  cases ho : it.offset with
  | none => rfl
  | some o =>
    obtain ⟨x, hx, hkept⟩ := Draft.mem_keptOffsets.1 ((Draft.plan_items hplan it hit).2 o ho)
    obtain ⟨f, hf, hfo⟩ := List.mem_filterMap.1 hkept
    rw [hd x hx f hf] at hfo
    cases hfo

/-- A compact write of a well-formed draft fails only because of its input. -/
theorem write_fails {d : Draft} (hwf : d.WellFormed) (o : ByteOrder) : FailsOfInput (write o d) := by
  unfold write
  dsimp only
  by_cases hbo : o ≠ d.byteOrder
  · rw [if_pos hbo]
    exact .bind (.throw (.byteOrderMismatch _ _)) fun _ h => by cases h
  rw [if_neg hbo]
  rcases hplan : d.plan with ⟨d₂, planned⟩
  dsimp only
  rcases planned with e | p₀
  · intro e' h
    cases h
    exact Draft.plan_fails hwf.coherent e (by rw [hplan])
  rw [ok_bind]
  refine .bind (packFrom_fails (by decide) (plan_unplaced hwf.noKeptOffsets hplan))
    fun ⟨items, length⟩ hpack => ?_
  have hP := packFrom_packed hpack
  have hp : p₀.Placed { p₀ with items } := ⟨rfl, rfl, rfl, rfl, hP.parts⟩
  have hall : Plan.AllPlaced { p₀ with items } := by
    intro id it hit
    obtain ⟨it₀, off, -, rfl, -⟩ := hP.source hit
    rfl
  dsimp only
  rcases hpatch : ({ p₀ with items } : Plan).patch d₂ with ⟨d₃, patched⟩
  dsimp only
  refine .bind (fun e h => Plan.patch_fails hwf.coherent hplan hp hall e (by rw [hpatch]; exact h))
    fun _ hpatched => ?_
  rw [hpatched] at hpatch
  refine .bind (.of_checked _) fun size hsize => ?_
  obtain ⟨-, rfl⟩ := Width.narrow_ok_iff.1 (checked_eq_ok.1 hsize)
  obtain ⟨root, hroot⟩ := Plan.rootOffset_ok hwf.coherent hplan hp hall
  rw [hroot, ok_bind]
  refine .bind (writeHeader_fails (by rw [Buffer.size_zeros]; exact hP.le)) fun buf hbuf => ?_
  refine Plan.writeItems_fails (fun id it hit => Plan.pieces_fails hwf.coherent hplan hp hall hpatch hit)
    ((size_writeHeader hbuf).trans (Buffer.size_zeros _)) fun id hid => ?_
  have hlt : id < items.length := List.mem_range.1 hid
  obtain ⟨it₀, off, -, hit, -, hstop⟩ := hP.source (List.getElem?_eq_getElem hlt)
  exact ⟨_, off, List.getElem?_eq_getElem hlt, by rw [hit], by rw [hit]; exact hstop,
    packed_emits hplan hpack hpatch id _ (List.getElem?_eq_getElem hlt)⟩

end Compact

namespace Extent

theorem coalesceFrom_ne_nil : ∀ {start stop : Nat} {es runs : List Extent},
    coalesceFrom start stop es = .ok runs → runs ≠ []
  | _, _, [], runs, h => by
    rw [coalesceFrom_nil_eq_ok h]
    exact List.cons_ne_nil _ _
  | _, _, e :: es, runs, h => by
    rcases (coalesceFrom_cons_eq_ok h).2.2 with ⟨-, -, rest, -, rfl⟩ | ⟨-, h⟩
    · exact List.cons_ne_nil _ _
    · exact coalesceFrom_ne_nil h

/-- Ranges coalesce into at least one run. -/
theorem coalesce_ne_nil {es runs : List Extent} (h : coalesce es = .ok runs) (hes : es ≠ []) :
    runs ≠ [] := by
  unfold coalesce at h
  split at h
  · rename_i hsort
    have hperm := sortByOffset_perm es
    rw [hsort] at hperm
    exact absurd (List.nil_perm.1 hperm) hes
  · obtain ⟨stop, -, h⟩ := bind_eq_ok.1 h
    exact coalesceFrom_ne_nil h

end Extent

namespace Segment

/-- A walk keeps the directories it has found. -/
theorem found_prefix_follow (data : ByteArray) (o : ByteOrder) : ∀ (depth : Nat) (w : Walk)
    (link : DirectoryKind × Nat), w.found <+: (Walk.follow data o depth w link).found
  | 0, w, _ => by simp [Walk.follow]
  | depth + 1, w, (kind, offset) => by
    unfold Walk.follow
    split
    · exact List.prefix_refl _
    · split
      · apply List.foldlRecOn (motive := fun w' : Walk => w.found <+: w'.found)
        · exact List.prefix_append _ _
        · intro w' hw' link _
          exact hw'.trans (found_prefix_follow data o depth w' link)
      · exact List.prefix_refl _

/-- A read segment has its root directory. -/
theorem read_ifds_ne_nil {data : ByteArray} {s : Segment} (h : read data = .ok s) : s.ifds ≠ [] := by
  obtain ⟨⟨o, rootOffset⟩, -, h⟩ := bind_eq_ok.1 h
  dsimp only at h
  rcases hr : Walk.readAt data o { visited := [], found := [] } .root rootOffset with
    ⟨visited, result⟩
  rw [hr] at h
  obtain ⟨root, hroot, h⟩ := bind_eq_ok.1 h
  subst hroot
  simp only [pure, Except.pure, Except.ok.injEq] at h
  subst h
  have hlinks : [root] <+: ((root.links o).foldl (Walk.follow data o linkDepth)
      ⟨visited, [root]⟩).found := by
    apply List.foldlRecOn (motive := fun w : Walk => [root] <+: w.found)
    · exact List.prefix_refl _
    · intro w' hw' link _
      exact hw'.trans (found_prefix_follow data o linkDepth w' link)
  dsimp only
  split
  · exact fun hnil => by simp [hnil] at hlinks
  · exact fun hnil => by simpa [hnil] using hlinks.trans (found_prefix_follow data o linkDepth _ (.thumbnail, root.next))

end Segment

namespace Gaps

/-- The analysis of an entry only appends to the ranges so far. -/
theorem ofEntry_grows (frozen : List Tag) (acc : List Extent) (d : Draft) (e : Entry) :
    acc <+: (ofEntry frozen (acc, d) e).1 := by
  unfold ofEntry
  dsimp only
  split
  · split
    · split
      · exact List.prefix_refl _
      · exact List.prefix_append _ _
    · exact List.prefix_append _ _
  · exact List.prefix_refl _

/-- The analysis of a directory adds its table after the ranges so far. -/
theorem ofIfd_table (frozen : List Tag) (acc : List Extent) (d : Draft) (x : Ifd) :
    acc ++ [⟨x.offset, x.table.size⟩] <+: (ofIfd frozen (acc, d) x).1 := by
  have hentries : acc ++ [⟨x.offset, x.table.size⟩] <+: (x.entries.foldl (ofEntry frozen)
      (acc ++ [⟨x.offset, x.table.size⟩], d)).1 := by
    apply List.foldlRecOn (motive := fun r : List Extent × Draft =>
      acc ++ [(⟨x.offset, x.table.size⟩ : Extent)] <+: r.1)
    · exact List.prefix_refl _
    · rintro ⟨acc', d'⟩ hacc entry _
      exact hacc.trans (ofEntry_grows frozen acc' d' entry)
  unfold ofIfd
  dsimp only
  split
  · exact hentries.trans (List.prefix_append _ _)
  · exact hentries

/-- An analysis that succeeds finds at least one run: the root table. -/
theorem analyze_runs_ne_nil {old : ByteArray} {o : ByteOrder} {d d' : Draft} {frozen : List Tag}
    {runs : List Extent} (h : analyze old o d frozen = .ok (runs, d')) : runs ≠ [] := by
  obtain ⟨s, hs, -, hruns, -⟩ := analyze_eq_ok h
  obtain ⟨x, xs, hx⟩ := List.exists_cons_of_ne_nil (Segment.read_ifds_ne_nil hs)
  have hext : (s.ifds.foldl (ofIfd frozen) ([], d)).1 ≠ [] := by
    rw [hx, List.foldl_cons]
    have hfirst : [⟨x.offset, x.table.size⟩] <+: (xs.foldl (ofIfd frozen)
        (ofIfd frozen ([], d) x)).1 := by
      apply List.foldlRecOn (motive := fun r : List Extent × Draft =>
        [(⟨x.offset, x.table.size⟩ : Extent)] <+: r.1)
      · exact ofIfd_table frozen [] d x
      · rintro ⟨acc, d₁⟩ hacc y _
        exact hacc.trans ((List.prefix_append _ _).trans (ofIfd_table frozen acc d₁ y))
    exact fun hnil => by simp [hnil] at hfirst
  exact Extent.coalesce_ne_nil hruns hext

/-- An analysis fails only for an old segment that cannot be read or has another byte order, or
by arithmetic. -/
theorem analyze_fails (old : ByteArray) (o : ByteOrder) (d : Draft) (frozen : List Tag) :
    FailsOfInput (analyze old o d frozen) := by
  unfold analyze
  refine .bind (fun e h => ?_) fun s _ => ?_
  · cases hr : Segment.read old with
    | error e' =>
      rw [hr] at h
      cases h
      exact .analysis e'
    | ok s =>
      rw [hr] at h
      cases h
  · dsimp only
    by_cases hbo : o ≠ s.byteOrder
    · rw [if_pos hbo]
      exact .bind (.throw (.byteOrderMismatch _ _)) fun _ h => by cases h
    · rw [if_neg hbo]
      rcases s.ifds.foldl (ofIfd frozen) ([], d) with ⟨extents, d₂⟩
      exact .bind (.of_checked _) fun _ _ => .ok _

end Gaps

namespace Reuse

section Gaps

variable {o : ByteOrder} {old : ByteArray} {d₀ d d₂ : Draft} {frozen : List Tag}
  {runs pool : List Extent} {p₀ p : Plan} {tail length : Nat}

/-- After placement into the gaps every item has its offset: the items written are placed, and
the others were placed in advance at a kept offset. -/
theorem Layout.allPlaced (hl : Layout pool tail length p₀ p (writtenIds p₀ d.keptOffsets)) :
    p.AllPlaced := by
  intro id it hit
  by_cases hid : id ∈ writtenIds p₀ d.keptOffsets
  · obtain ⟨it₀, r, -, hplaced, -⟩ := hl.placed id hid
    rw [hit, Option.some.injEq] at hplaced
    rw [hplaced]
    rfl
  · rw [hl.unchanged id hid] at hit
    cases ho : it.offset with
    | some _ => rfl
    | none => exact absurd (mem_writtenIds.2 ⟨it, hit, fun _ h => by rw [ho] at h; cases h⟩) hid

/-- Writing into the gaps of an analysed segment whose draft is coherent fails only because of
its input. -/
theorem writeGaps_fails (hanalyze : Gaps.analyze old o d₀ frozen = .ok (runs, d))
    (hwf : d.Coherent) : FailsOfInput (writeGaps o old runs d) := by
  obtain ⟨hold, hinside, hsep⟩ := Gaps.analyze_runs hanalyze
  unfold writeGaps
  rcases hplan : d.plan with ⟨d₂, planned⟩
  dsimp only
  rcases planned with e | p₀
  · intro e' h
    cases h
    exact Draft.plan_fails hwf e (by rw [hplan])
  rw [ok_bind]
  have hspec := place_spec hinside hsep hold (writtenIds_nodup p₀ _) (writtenIds_unplaced hplan)
  refine .bind (.of_arith hspec.2) fun ⟨p, length⟩ hplace => ?_
  obtain ⟨pool, tail, -, -, hl⟩ := hspec.1 p length hplace
  have hp : p₀.Placed p := hl.placed_plan (place_frame hplace)
  have hall := hl.allPlaced
  dsimp only
  rcases hpatch : p.patch d₂ with ⟨d₃, patched⟩
  dsimp only
  refine .bind (fun e h => Plan.patch_fails hwf hplan hp hall e (by rw [hpatch]; exact h))
    fun _ hpatched => ?_
  rw [hpatched] at hpatch
  refine .bind (.of_arith canvas_spec.2) fun buf hcanvas => ?_
  obtain ⟨root, hroot⟩ := Plan.rootOffset_ok hwf hplan hp hall
  rw [hroot, ok_bind]
  have hbuf := canvas_spec.1 buf hcanvas
  refine .bind (writeHeader_fails (hbuf ▸ hl.header)) fun buf' hwh => ?_
  refine Plan.writeItems_fails (fun id it hit => Plan.pieces_fails hwf hplan hp hall hpatch hit)
    ((size_writeHeader hwh).trans hbuf) fun id hid => ?_
  obtain ⟨it₀, r, -, hplaced, hlen, -, hstop⟩ := hl.placed id hid
  exact ⟨_, r.offset, hplaced, rfl, by simpa [Extent.stop, hlen] using hstop,
    hl.emits hplan hpatch id _ hplaced⟩

end Gaps

/-- A write of a well-formed draft reusing an old layout fails only because of its input: the
analysis always finds a run, a whole run is written compactly, and the gaps otherwise. -/
theorem write_fails {d : Draft} (hwf : d.WellFormed) (o : ByteOrder) (old : ByteArray)
    (frozen : List Tag) : FailsOfInput (write o old frozen d) := by
  unfold write
  dsimp only
  by_cases hbo : o ≠ d.byteOrder
  · rw [if_pos hbo]
    exact .bind (.throw (.byteOrderMismatch _ _)) fun _ h => by cases h
  rw [if_neg hbo]
  refine .bind (Gaps.analyze_fails old o d frozen) fun ⟨runs, d₁⟩ hanalyze => ?_
  have hclear := Gaps.analyze_clear hanalyze hwf.noKeptOffsets
  dsimp only
  split
  · rename_i first rest
    -- whichever way the one-run test goes, the writer chosen fails only because of its input
    have hchosen : ∀ whole : Bool, FailsOfInput (if whole = true then Compact.write o d₁.clearKeptOffsets
        else writeGaps o old (first :: rest) d₁) := by
      intro whole
      split
      · rw [hclear, Draft.clearKeptOffsets_eq_self hwf.noKeptOffsets]
        exact Compact.write_fails hwf o
      · exact writeGaps_fails hanalyze (hwf.coherent.of_clear hclear)
    split
    · exact .bind (.of_checked _) fun _ _ => hchosen _
    · exact hchosen false
  · rename_i hnone
    obtain ⟨first, rest, hruns⟩ := List.exists_cons_of_ne_nil (Gaps.analyze_runs_ne_nil hanalyze)
    exact absurd hruns (hnone first rest)

end Reuse

/-- Both writers fail on a well-formed draft only because of their input. Neither fails for want
of an analysis, an item placed twice, left unplaced or at an odd offset, a pointer to a missing
field, a duplicate field or output past the end of the buffer. -/
theorem Draft.WellFormed.write_error_ofInput {d : Draft} (hwf : d.WellFormed) (o : ByteOrder) :
    (∀ e, Compact.write o d = .error e → e.OfInput) ∧
      ∀ (old : ByteArray) (frozen : List Tag) (e : LayoutError),
        Reuse.write o old frozen d = .error e → e.OfInput :=
  ⟨Compact.write_fails hwf o, fun old frozen => Reuse.write_fails hwf o old frozen⟩

/-- An Interop directory under a root without Exif, in the writers' byte order: the compact
writer fails for the missing parent, the writer that reuses gaps for an old segment cut short
after its byte order mark, and both fail only because of their input. -/
theorem Draft.write_error_ofInput_interopOrphan :
    Draft.WellFormed ⟨.little, [⟨.root, .little, [], none⟩, ⟨.interop, .little, [], none⟩]⟩ ∧
    Compact.write .little ⟨.little, [⟨.root, .little, [], none⟩, ⟨.interop, .little, [], none⟩]⟩ =
      .error (.missingParent .interop) ∧
    Reuse.write .little ⟨#[73, 73, 42, 0]⟩ []
        ⟨.little, [⟨.root, .little, [], none⟩, ⟨.interop, .little, [], none⟩]⟩ =
      .error (.analysis .truncated) ∧
    (∀ e, Compact.write .little ⟨.little, [⟨.root, .little, [], none⟩, ⟨.interop, .little, [], none⟩]⟩ =
      .error e → e.OfInput) ∧
      ∀ (old : ByteArray) (frozen : List Tag) (e : LayoutError),
        Reuse.write .little old frozen
          ⟨.little, [⟨.root, .little, [], none⟩, ⟨.interop, .little, [], none⟩]⟩ = .error e → e.OfInput := by
  have hwf : Draft.WellFormed ⟨.little, [⟨.root, .little, [], none⟩, ⟨.interop, .little, [], none⟩]⟩ :=
    ⟨by decide, by simp, by simp, by simp, by simp⟩
  exact ⟨hwf, by decide, by decide, Draft.WellFormed.write_error_ofInput hwf .little⟩

end TiffLayout
