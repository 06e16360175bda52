import Mathlib.Logic.Relation
import TiffLayout.Proofs.Planning
import TiffLayout.Proofs.Serialized
/-! The footprint of writing one item, after any placing and patching: it is written whole
when the buffer has room and fails as an overrun otherwise, changing no byte outside its span. -/
namespace TiffLayout

open Buffer Emission

namespace Directory

/-- Changing the first field with a tag keeps every field with another tag in its place. -/
theorem updateField_go_getElem?_of_ne {t : Tag} {g : Field → Field} :
    ∀ {fs : List Field} {j : Nat} {f : Field}, fs[j]? = some f → f.tag ≠ t →
      (updateField.go t g fs)[j]? = some f
  | [], _, _, h, _ => by simp at h
  | f₀ :: fs, j, f, h, ht => by
    unfold updateField.go
    cases j with
    | zero =>
      rw [List.getElem?_cons_zero, Option.some.injEq] at h
      subst h
      rw [if_neg ht, List.getElem?_cons_zero]
    | succ j =>
      rw [List.getElem?_cons_succ] at h
      split
      · rw [List.getElem?_cons_succ, h]
      · rw [List.getElem?_cons_succ, updateField_go_getElem?_of_ne h ht]

theorem Repointed.refl (x : Directory) : x.Repointed x := ⟨rfl, rfl, fun _ _ hf _ => hf⟩

/-- Changing a field whose tag no out-of-line field of `x` has keeps `y` repointed from `x`. -/
theorem Repointed.updateField {x y : Directory} (h : x.Repointed y) {t : Tag} {g : Field → Field}
    (ht : ∀ f ∈ x.fields, f.outOfLine → f.tag ≠ t) : x.Repointed (y.updateField t g) where
  length := (updateField_go_length t g y.fields).trans h.length
  thumbnail := h.thumbnail
  outOfLine j f hf hout :=
    updateField_go_getElem?_of_ne (h.outOfLine j f hf hout) (ht f (List.mem_of_getElem? hf) hout)

end Directory

namespace Draft

/-- What writing pointers into fields of structural tags, any number of times and stopped
anywhere, keeps of a draft: its directories, each with its number of fields, its thumbnail and
its out-of-line fields, and no payload that was at most four bytes grows past four. -/
structure Repatched (d d' : Draft) : Prop where
  length : d'.dirs.length = d.dirs.length
  resized : d.Resized d'
  repointed : d.Repointed d'

theorem Repatched.refl (d : Draft) : d.Repatched d where
  length := rfl
  resized := Resized.refl d
  repointed i x y hx hy := by
    rw [hx, Option.some.injEq] at hy
    exact hy ▸ Directory.Repointed.refl x

/-- Every directory of a draft stands, resized and repointed, in a repatched draft. -/
theorem Repatched.getElem? {d d' : Draft} (h : d.Repatched d') {i : Nat} {x : Directory}
    (hx : d.dirs[i]? = some x) : ∃ y, d'.dirs[i]? = some y ∧ x.Resized y ∧ x.Repointed y := by
  have hy := List.getElem?_eq_getElem (h.length ▸ (List.getElem?_eq_some_iff.1 hx).1)
  exact ⟨_, hy, h.resized.dir i x _ hx hy, h.repointed i x _ hx hy⟩

/-- Writing at most four bytes into a field of a structural tag keeps a draft repatched from one
whose out-of-line fields are not structural. -/
theorem Repatched.write {d₀ d : Draft} (h : d₀.Repatched d)
    (hd₀ : ∀ x ∈ d₀.dirs, ∀ f ∈ x.fields, f.outOfLine → f.tag.isStructural = false)
    (i : Nat) {t : Tag} (ht : t.isStructural = true) {bytes : List UInt8} (hb : bytes.length ≤ 4) :
    d₀.Repatched
      { d with dirs := d.dirs.modify i (·.updateField t (·.setBytes 1 ⟨bytes.toArray⟩)) } where
  length := (List.length_modify ..).trans h.length
  resized := h.resized.updateField i fun f => by simpa [Field.setBytes, ByteArray.size] using hb
  repointed j x z hx hz := by
    rw [List.getElem?_modify] at hz
    cases hy : d.dirs[j]? with
    | none => simp [hy] at hz
    | some y =>
      rw [hy, Option.map_eq_map, Option.map_some, Option.some.injEq] at hz
      subst hz
      have hxy := h.repointed j x y hx hy
      split
      · refine hxy.updateField fun f hf hout htag => ?_
        rw [← htag, hd₀ x (List.mem_of_getElem? hx) f hf hout] at ht
        cases ht
      · exact hxy

variable {d d₂ : Draft} {p₀ : Plan}

/-- A planned draft holds its structural fields inline, so none of its out-of-line fields is
structural. -/
theorem plan_outOfLine_plain (hwf : d.Coherent) (hplan : d.plan = (d₂, .ok p₀)) :
    ∀ x ∈ d₂.dirs, ∀ f ∈ x.fields, f.outOfLine → f.tag.isStructural = false := by
  obtain ⟨root, -, -, hsyn, -⟩ := plan_eq_ok hplan
  rw [synthesize_eq_ok hsyn hwf.distinctTags]
  intro x hx f hf hout
  obtain ⟨x₀, -, rfl⟩ := List.mem_map.1 hx
  cases hs : f.tag.isStructural with
  | false => rfl
  | true =>
    rw [Directory.inline_of_structural hf hs] at hout
    cases hout

/-- The thumbnails of a planned draft are those of the draft, so none of them is empty. -/
theorem plan_thumbnail_pos (hwf : d.Coherent) (hplan : d.plan = (d₂, .ok p₀)) {i : Nat}
    {y : Directory} (hy : d₂.dirs[i]? = some y) {t : ByteArray} (ht : y.thumbnail = some t) :
    0 < t.size := by
  obtain ⟨root, -, -, hsyn, -⟩ := plan_eq_ok hplan
  have hres := synthesize_resynthesized hwf hsyn
  obtain ⟨x, hx⟩ : ∃ x, d.dirs[i]? = some x :=
    ⟨_, List.getElem?_eq_getElem (hres.length ▸ (List.getElem?_eq_some_iff.1 hy).1)⟩
  obtain ⟨x₂, hx₂, hshape, -⟩ := hres.dir i x hx
  rw [hy, Option.some.injEq] at hx₂
  subst hx₂
  exact hwf.thumbnails x (List.mem_of_getElem? hx) t ((congrArg Directory.thumbnail hshape).symm.trans ht)

end Draft

/-- An item that is sized in a draft without empty thumbnails has a positive length. -/
theorem Item.Sized.length_pos_of_thumbnails {d : Draft} {it : Item} (h : it.Sized d)
    (hth : ∀ (i : Nat) (x : Directory) (t : ByteArray), d.dirs[i]? = some x → x.thumbnail = some t →
      0 < t.size) : 0 < it.length := by
  rcases it with ⟨part, length, offset⟩
  unfold Item.Sized at h
  cases part with
  | table i =>
    obtain ⟨x, -, hlen⟩ := h
    dsimp only at hlen ⊢
    rw [hlen, Ifd.tableLength]
    omega
  | value i j =>
    obtain ⟨x, f, -, -, hout, hlen⟩ := h
    simp only [Field.outOfLine, decide_eq_true_eq] at hout
    dsimp only at hlen ⊢
    omega
  | thumbnail i =>
    obtain ⟨x, t, hx, ht, hlen⟩ := h
    dsimp only at hlen ⊢
    rw [hlen]
    exact hth i x t hx ht

/-- What an item writes in a draft: an entry table is two bytes of count, twelve per field and
four of next-directory offset; a value is the bytes of its field; a thumbnail is its data. -/
def Item.Writes (d : Draft) (it : Item) (bs : List UInt8) : Prop :=
  match it.part with
  | .table i => ∃ x, d.dirs[i]? = some x ∧ bs.length = 2 + 12 * x.fields.length + 4
  | .value i j => ∃ x f, d.dirs[i]? = some x ∧ x.fields[j]? = some f ∧ bs = f.bytes.data.toList
  | .thumbnail i => ∃ x t, d.dirs[i]? = some x ∧ x.thumbnail = some t ∧ bs = t.data.toList

namespace Emission

/-- Pieces that all hold bytes give output that does not stop. -/
theorem stop_of_ok : ∀ {ps : List (Except LayoutError (List UInt8))},
    (∀ r ∈ ps, ∃ b, r = .ok b) → (ofPieces ps).stop = none
  | [], _ => rfl
  | r :: ps, h => by
    obtain ⟨b, rfl⟩ := h r List.mem_cons_self
    show (ofPieces ps).stop = none
    exact stop_of_ok fun r' hr' => h r' (List.mem_cons_of_mem _ hr')

end Emission

namespace Buffer

/-- Output that does not fail is written at its offset as far as the buffer reaches; it succeeds
when the buffer has room for all of it and fails as an overrun otherwise. -/
theorem emitAt_of_stop {buf : ByteArray} {o : Nat} {ps : List (Except LayoutError (List UInt8))}
    (h : (ofPieces ps).stop = none) (hne : (ofPieces ps).bytes ≠ []) :
    emitAt buf o ps = (put buf o (ofPieces ps).bytes,
      if o + (ofPieces ps).bytes.length ≤ buf.size then .ok () else .error .overrun) := by
  unfold emitAt
  dsimp only
  by_cases hroom : o + (ofPieces ps).bytes.length ≤ buf.size
  · rw [if_neg fun hc => absurd hc.2 (Nat.not_lt.2 hroom), h, if_pos hroom]
  · rw [if_pos ⟨hne, Nat.lt_of_not_le hroom⟩, if_neg hroom]

/-- Writing changes no byte outside the span of what it writes. -/
theorem getElem?_put_of_outside (buf : ByteArray) {o k : Nat} {bs : List UInt8}
    (hk : k < o ∨ o + bs.length ≤ k) : (put buf o bs).data.toList[k]? = buf.data.toList[k]? := by
  rw [getElem?_put, if_neg (by omega)]

end Buffer

namespace Plan

/-- One step between planning and writing: an item is placed, or the pointer fields are written
with the items placed so far, whether the writing fails or not. -/
inductive Settle : Plan × Draft → Plan × Draft → Prop
  | place {p p' : Plan} {d : Draft} {id o : Nat} (h : p.place id o = .ok p') : Settle (p, d) (p', d)
  | patch (p : Plan) (d : Draft) : Settle (p, d) (p, (p.patch d).1)

/-- What the steps between planning and writing keep of a plan `p₀` and its draft `d₂`: the
items, up to their offsets, the pointers and the links of the plan, and the draft repatched. -/
structure Settled (p₀ : Plan) (d₂ : Draft) (p : Plan) (d : Draft) : Prop where
  placed : p₀.Placed p
  lengths : p.items.map (·.length) = p₀.items.map (·.length)
  repatched : d₂.Repatched d

/-- Placing an item keeps every view of the items that does not see offsets. -/
theorem map_items_place {p p' : Plan} {id o : Nat} (h : p.place id o = .ok p') {β : Type}
    (g : Item → β) (hg : ∀ it : Item, g { it with offset := some o } = g it) :
    p'.items.map g = p.items.map g := by
  obtain ⟨it, hit, -, -, rfl⟩ := place_eq_ok h
  have hlt : id < p.items.length := (List.getElem?_eq_some_iff.1 hit).1
  apply List.ext_getElem?
  intro n
  rw [List.getElem?_map, List.getElem?_map, List.getElem?_set]
  split
  · rename_i hn
    rw [← hn, hit]
    simp [hg]
  · rfl

/-- Writing pointers into fields of structural tags keeps a draft repatched from one whose
out-of-line fields are not structural, wherever the writing stops. -/
theorem patchFrom_repatched {p : Plan} {d₀ : Draft}
    (hd₀ : ∀ x ∈ d₀.dirs, ∀ f ∈ x.fields, f.outOfLine → f.tag.isStructural = false) :
    ∀ {qs : List Pointer} {d : Draft}, (∀ q ∈ qs, q.tag.isStructural = true) → d₀.Repatched d →
      d₀.Repatched (p.patchFrom qs d).1
  | [], _, _, h => h
  | q :: qs, d, hqs, h => by
    unfold patchFrom
    split
    · exact h
    · rename_i bytes hbytes
      split
      · exact h
      · obtain ⟨off, -, hb⟩ := bind_eq_ok.1 hbytes
        obtain ⟨-, rfl⟩ := offsetBytes_eq_ok hb
        exact patchFrom_repatched hd₀ (fun q' hq' => hqs q' (List.mem_cons_of_mem q hq'))
          (h.write hd₀ q.dir (hqs q List.mem_cons_self) (ByteOrder.length_encode ..).le)

variable {d d₂ : Draft} {p₀ : Plan}

/-- One step between planning and writing keeps what the steps keep. -/
theorem Settled.settle (hwf : d.Coherent) (hplan : d.plan = (d₂, .ok p₀)) {s s' : Plan × Draft}
    (h : Settled p₀ d₂ s.1 s.2) (hs : Settle s s') : Settled p₀ d₂ s'.1 s'.2 := by
  cases hs with
  | place hplace =>
    obtain ⟨it, -, -, -, rfl⟩ := place_eq_ok hplace
    have hparts := map_items_place hplace (·.part) fun _ => rfl
    have hlengths := map_items_place hplace (·.length) fun _ => rfl
    exact ⟨⟨h.placed.byteOrder, h.placed.pointers, h.placed.chain, h.placed.root,
      hparts.trans h.placed.parts⟩, hlengths.trans h.lengths, h.repatched⟩
  | patch p d =>
    obtain ⟨root, -, -, -, hof⟩ := Draft.plan_eq_ok hplan
    exact ⟨h.placed, h.lengths, patchFrom_repatched (Draft.plan_outOfLine_plain hwf hplan)
      (fun q hq => Placed.pointer_structural hof h.placed hq) h.repatched⟩

/-- Every run of steps after planning keeps what the steps keep. -/
theorem Settled.run (hwf : d.Coherent) (hplan : d.plan = (d₂, .ok p₀)) {s : Plan × Draft}
    (hrun : Relation.ReflTransGen Settle (p₀, d₂) s) : Settled p₀ d₂ s.1 s.2 := by
  induction hrun with
  | refl => exact ⟨⟨rfl, rfl, rfl, rfl, rfl⟩, rfl, Draft.Repatched.refl d₂⟩
  | tail _ hs ih => exact ih.settle hwf hplan hs

/-- Every item of a settled plan is sized in the planned draft. -/
theorem Settled.sized (hplan : d.plan = (d₂, .ok p₀)) {p : Plan} {d₃ : Draft}
    (h : Settled p₀ d₂ p d₃) {id : Nat} {it : Item} (hit : p.items[id]? = some it) :
    it.Sized d₂ := by
  have hpart := h.placed.part id
  have hlen : (p.items[id]?).map (·.length) = (p₀.items[id]?).map (·.length) := by
    rw [← List.getElem?_map, ← List.getElem?_map, h.lengths]
  rw [hit] at hpart hlen
  obtain ⟨it₀, hit₀, hpart₀⟩ := Option.map_eq_some_iff.1 hpart.symm
  rw [hit₀, Option.map_some, Option.map_some, Option.some.injEq] at hlen
  have hsized := (Draft.plan_items hplan it₀ (List.mem_of_getElem? hit₀)).1
  rcases it with ⟨part, length, offset⟩
  rcases it₀ with ⟨part₀, length₀, offset₀⟩
  dsimp only at hpart₀ hlen
  subst hpart₀ hlen
  exact hsized

/-- An item that can be written whole: an entry table counts its fields in sixteen bits and refers
only to items placed within thirty-two bits, the values of its out-of-line fields and the table of
the directory chained after it. Values and thumbnails refer to nothing. -/
def Writable (p : Plan) (d : Draft) (it : Item) : Prop :=
  ∀ i, it.part = .table i →
    (∀ x, d.dirs[i]? = some x → x.fields.length < Width.bits16.bound) ∧
    (∀ j id, p.valueItem? i j = some id → ∃ v, p.itemOffset id = .ok v ∧ v < Width.bits32.bound) ∧
    (∀ n, p.next? i = some n → ∃ v, p.dirOffset n = .ok v ∧ v < Width.bits32.bound)

variable {p : Plan}

/-- The slot of a field is written when the value items of its directory are placed within
32 bits. -/
theorem slotPiece_ok (hplan : d.plan = (d₂, .ok p₀)) (hp : p₀.Placed p) {i j : Nat}
    {x y : Directory} (hx : d₂.dirs[i]? = some x) (hxy : x.Resized y) {f : Field}
    (hf : y.fields[j]? = some f)
    (hvalues : ∀ j id, p.valueItem? i j = some id →
      ∃ v, p.itemOffset id = .ok v ∧ v < Width.bits32.bound) :
    ∃ b, p.slotPiece i j f = .ok b := by
  unfold slotPiece
  split
  · rename_i hout
    obtain ⟨id, hid⟩ := valueItem?_of_outOfLine hplan hp hx hxy hf hout
    obtain ⟨v, hv, hlt⟩ := hvalues j id hid
    simp only [hid, hv, ok_bind, offsetBytes_ok hlt]
    exact ⟨_, rfl⟩
  · exact ⟨_, rfl⟩

/-- The next-directory offset is written when the chained directory is placed within 32 bits. -/
theorem nextPiece_ok {i : Nat}
    (hnext : ∀ n, p.next? i = some n → ∃ v, p.dirOffset n = .ok v ∧ v < Width.bits32.bound) :
    ∃ b, p.nextPiece i = .ok b := by
  unfold nextPiece
  split
  · rename_i n hn
    obtain ⟨v, hv, hlt⟩ := hnext n hn
    rw [hv, ok_bind, offsetBytes_ok hlt]
    exact ⟨_, rfl⟩
  · exact ⟨_, rfl⟩

/-- Every piece of an entry table is written when it counts its fields in 16 bits and what it
refers to is placed within 32 bits. -/
theorem tablePieces_ok (hplan : d.plan = (d₂, .ok p₀)) (hp : p₀.Placed p) {i : Nat}
    {x y : Directory} (hx : d₂.dirs[i]? = some x) (hxy : x.Resized y)
    (hcount : y.fields.length < Width.bits16.bound)
    (hvalues : ∀ j id, p.valueItem? i j = some id →
      ∃ v, p.itemOffset id = .ok v ∧ v < Width.bits32.bound)
    (hnext : ∀ n, p.next? i = some n → ∃ v, p.dirOffset n = .ok v ∧ v < Width.bits32.bound) :
    ∀ r ∈ p.tablePieces i y, ∃ b, r = .ok b := by
  intro r hr
  simp only [tablePieces, List.mem_cons, List.mem_append, List.mem_flatMap, List.not_mem_nil,
    or_false] at hr
  rcases hr with (rfl | ⟨⟨f, j⟩, hfj, rfl | rfl⟩) | rfl
  · have hw : checked (Width.bits16.narrow y.fields.length) = .ok y.fields.length :=
      checked_eq_ok.2 (Width.narrow_ok_iff.2 ⟨hcount, rfl⟩)
    rw [hw]
    exact ⟨_, rfl⟩
  · exact ⟨_, rfl⟩
  · exact slotPiece_ok hplan hp hx hxy (List.mk_mem_zipIdx_iff_getElem?.1 hfj) hvalues
  · exact nextPiece_ok hnext

/-- A writable item of a settled plan serializes without failure in the repatched draft. -/
theorem pieces_ok (hplan : d.plan = (d₂, .ok p₀)) {d₃ : Draft} (h : Settled p₀ d₂ p d₃) {id : Nat}
    {it : Item} (hit : p.items[id]? = some it) (hw : p.Writable d₃ it) :
    (ofPieces (p.pieces it d₃)).stop = none := by
  have hsized := h.sized hplan hit
  apply stop_of_ok
  rcases it with ⟨part, length, offset⟩
  unfold Item.Sized at hsized
  unfold pieces
  cases part with
  | table i =>
    obtain ⟨x, hx, -⟩ := hsized
    obtain ⟨y, hy, hxy, -⟩ := h.repatched.getElem? hx
    obtain ⟨hcount, hvalues, hnext⟩ := hw i rfl
    simp only [hy]
    exact tablePieces_ok hplan h.placed hx hxy (hcount y hy) hvalues hnext
  | value i j =>
    obtain ⟨x, f, hx, hf, hout, -⟩ := hsized
    obtain ⟨y, hy, -, hrep⟩ := h.repatched.getElem? hx
    simp only [hy, Option.bind_some, hrep.outOfLine j f hf hout, List.mem_singleton, forall_eq]
    exact ⟨_, rfl⟩
  | thumbnail i =>
    obtain ⟨x, t, hx, ht, -⟩ := hsized
    obtain ⟨y, hy, hxy, -⟩ := h.repatched.getElem? hx
    simp only [hy, Option.bind_some, hxy.thumbnail.trans ht, List.mem_singleton, forall_eq]
    exact ⟨_, rfl⟩

/-- An item whose output does not fail writes what its part holds in the draft. -/
theorem output_writes {d : Draft} {it : Item} (h : (ofPieces (p.pieces it d)).stop = none) :
    it.Writes d (p.output it d) := by
  rcases it with ⟨part, length, offset⟩
  unfold Item.Writes output
  unfold pieces at h ⊢
  cases part with
  | table i =>
    dsimp only at h ⊢
    cases hx : d.dirs[i]? with
    | none => simp [hx, ofPieces] at h
    | some x =>
      simp only [hx] at h ⊢
      refine ⟨x, rfl, ?_⟩
      rw [tablePieces_exact p i x h, Ifd.tableLength, entrySize]
  | value i j =>
    dsimp only at h ⊢
    cases hf : (d.dirs[i]?).bind (·.fields[j]?) with
    | none => simp [hf, ofPieces] at h
    | some f =>
      obtain ⟨x, hx, hf⟩ := Option.bind_eq_some_iff.1 hf
      refine ⟨x, f, hx, hf, ?_⟩
      simp [ofPieces]
  | thumbnail i =>
    dsimp only at h ⊢
    cases ht : (d.dirs[i]?).bind (·.thumbnail) with
    | none => simp [ht, ofPieces] at h
    | some t =>
      obtain ⟨x, hx, ht⟩ := Option.bind_eq_some_iff.1 ht
      refine ⟨x, t, hx, ht, ?_⟩
      simp [ofPieces]

/-- Writing one item of a planned draft, after any placements and pointer writes. An item whose
entry table, if it is one, counts its fields in sixteen bits and refers only to items placed
within thirty-two bits is written whole when the buffer has room for it and fails as an overrun
otherwise; either way no byte outside its span changes. What it writes has its length: an entry
table two bytes of count, twelve per field and four of next-directory offset, a value the bytes
of its field, a thumbnail its data. -/
theorem writeItem_footprint {d₃ : Draft} (hwf : d.Coherent) (hplan : d.plan = (d₂, .ok p₀))
    (hrun : Relation.ReflTransGen Settle (p₀, d₂) (p, d₃)) {id o : Nat} {it : Item}
    (hit : p.items[id]? = some it) (ho : it.offset = some o) (hw : p.Writable d₃ it)
    (buf : ByteArray) :
    (p.writeItem id d₃ buf).2 = (if o + it.length ≤ buf.size then .ok () else .error .overrun) ∧
    (∀ k, k < o ∨ o + it.length ≤ k →
      (p.writeItem id d₃ buf).1.data.toList[k]? = buf.data.toList[k]?) ∧
    (p.output it d₃).length = it.length ∧ it.Writes d₃ (p.output it d₃) ∧
    (o + it.length ≤ buf.size → Holds (p.writeItem id d₃ buf).1 o (p.output it d₃)) := by
  have h := Settled.run hwf hplan hrun
  have hsized := h.sized hplan hit
  have hstop := pieces_ok hplan h hit hw
  have hlen : (p.output it d₃).length = it.length :=
    pieces_exact hsized h.repatched.repointed hstop
  have hpos : 0 < it.length :=
    hsized.length_pos_of_thumbnails fun i x t hx ht => Draft.plan_thumbnail_pos hwf hplan hx ht
  have hwrite : p.writeItem id d₃ buf = (put buf o (p.output it d₃),
      if o + it.length ≤ buf.size then .ok () else .error .overrun) := by
    simp only [writeItem, hit, ho]
    rw [emitAt_of_stop hstop (List.ne_nil_of_length_pos (by rw [← output, hlen]; exact hpos))]
    rw [← output, hlen]
  rw [hwrite]
  exact ⟨rfl, fun k hk => getElem?_put_of_outside buf (hlen ▸ hk), hlen, output_writes hstop,
    fun hroom => put_holds (hlen ▸ hroom)⟩

/-- A root and an Exif directory holding one six-byte value: once the three items are placed one
after the other and the pointer to the Exif table is written, the Exif table is written whole into
a buffer of fifty bytes. -/
theorem writeItem_footprint_exif :
    Draft.Coherent ⟨.little, [⟨.root, .little, [], none⟩,
      ⟨.exif, .little, [Field.undefined ⟨0x9286⟩ ⟨#[1, 2, 3, 4, 5, 6]⟩], none⟩]⟩ ∧
    ∃ d₂ p₀ p d₃, Draft.plan ⟨.little, [⟨.root, .little, [], none⟩,
        ⟨.exif, .little, [Field.undefined ⟨0x9286⟩ ⟨#[1, 2, 3, 4, 5, 6]⟩], none⟩]⟩ = (d₂, .ok p₀) ∧
      Relation.ReflTransGen Settle (p₀, d₂) (p, d₃) ∧
      p.items[1]? = some ⟨.table 1, 18, some 26⟩ ∧ p.Writable d₃ ⟨.table 1, 18, some 26⟩ ∧
      (p.writeItem 1 d₃ (zeros 50)).2 =
        (if 26 + 18 ≤ (zeros 50).size then .ok () else .error .overrun) ∧
      (∀ k, k < 26 ∨ 26 + 18 ≤ k →
        (p.writeItem 1 d₃ (zeros 50)).1.data.toList[k]? = (zeros 50).data.toList[k]?) ∧
      (p.output ⟨.table 1, 18, some 26⟩ d₃).length = 18 ∧
      Item.Writes d₃ ⟨.table 1, 18, some 26⟩ (p.output ⟨.table 1, 18, some 26⟩ d₃) ∧
      (26 + 18 ≤ (zeros 50).size →
        Holds (p.writeItem 1 d₃ (zeros 50)).1 26 (p.output ⟨.table 1, 18, some 26⟩ d₃)) := by
  have hwf : Draft.Coherent ⟨.little, [⟨.root, .little, [], none⟩,
      ⟨.exif, .little, [Field.undefined ⟨0x9286⟩ ⟨#[1, 2, 3, 4, 5, 6]⟩], none⟩]⟩ :=
    ⟨by simp [DirectoryKind.rank], by simp, by simp, by simp⟩
  have hplan : Draft.plan ⟨.little, [⟨.root, .little, [], none⟩,
      ⟨.exif, .little, [Field.undefined ⟨0x9286⟩ ⟨#[1, 2, 3, 4, 5, 6]⟩], none⟩]⟩ =
      (⟨.little, [⟨.root, .little, [Field.long Tag.exifPointer 0 .little], none⟩,
        ⟨.exif, .little, [Field.undefined ⟨0x9286⟩ ⟨#[1, 2, 3, 4, 5, 6]⟩], none⟩]⟩,
      .ok ⟨.little, [⟨.table 0, 18, none⟩, ⟨.table 1, 18, none⟩, ⟨.value 1 0, 6, none⟩],
        [⟨0, Tag.exifPointer, 1⟩], [], 0⟩) := by
    with_unfolding_all rfl
  have hrun : Relation.ReflTransGen Settle
      (⟨.little, [⟨.table 0, 18, none⟩, ⟨.table 1, 18, none⟩, ⟨.value 1 0, 6, none⟩],
        [⟨0, Tag.exifPointer, 1⟩], [], 0⟩,
       ⟨.little, [⟨.root, .little, [Field.long Tag.exifPointer 0 .little], none⟩,
        ⟨.exif, .little, [Field.undefined ⟨0x9286⟩ ⟨#[1, 2, 3, 4, 5, 6]⟩], none⟩]⟩)
      (⟨.little, [⟨.table 0, 18, some 8⟩, ⟨.table 1, 18, some 26⟩, ⟨.value 1 0, 6, some 44⟩],
        [⟨0, Tag.exifPointer, 1⟩], [], 0⟩,
       (Plan.patch ⟨.little, [⟨.table 0, 18, some 8⟩, ⟨.table 1, 18, some 26⟩,
          ⟨.value 1 0, 6, some 44⟩], [⟨0, Tag.exifPointer, 1⟩], [], 0⟩
        ⟨.little, [⟨.root, .little, [Field.long Tag.exifPointer 0 .little], none⟩,
          ⟨.exif, .little, [Field.undefined ⟨0x9286⟩ ⟨#[1, 2, 3, 4, 5, 6]⟩], none⟩]⟩).1) := by
    have h₁ : Plan.place ⟨.little, [⟨.table 0, 18, none⟩, ⟨.table 1, 18, none⟩,
        ⟨.value 1 0, 6, none⟩], [⟨0, Tag.exifPointer, 1⟩], [], 0⟩ 0 8 =
        .ok ⟨.little, [⟨.table 0, 18, some 8⟩, ⟨.table 1, 18, none⟩, ⟨.value 1 0, 6, none⟩],
          [⟨0, Tag.exifPointer, 1⟩], [], 0⟩ := rfl
    have h₂ : Plan.place ⟨.little, [⟨.table 0, 18, some 8⟩, ⟨.table 1, 18, none⟩,
        ⟨.value 1 0, 6, none⟩], [⟨0, Tag.exifPointer, 1⟩], [], 0⟩ 1 26 =
        .ok ⟨.little, [⟨.table 0, 18, some 8⟩, ⟨.table 1, 18, some 26⟩, ⟨.value 1 0, 6, none⟩],
          [⟨0, Tag.exifPointer, 1⟩], [], 0⟩ := rfl
    have h₃ : Plan.place ⟨.little, [⟨.table 0, 18, some 8⟩, ⟨.table 1, 18, some 26⟩,
        ⟨.value 1 0, 6, none⟩], [⟨0, Tag.exifPointer, 1⟩], [], 0⟩ 2 44 =
        .ok ⟨.little, [⟨.table 0, 18, some 8⟩, ⟨.table 1, 18, some 26⟩, ⟨.value 1 0, 6, some 44⟩],
          [⟨0, Tag.exifPointer, 1⟩], [], 0⟩ := rfl
    exact .tail (.tail (.tail (.single (.place h₁)) (.place h₂)) (.place h₃)) (.patch _ _)
  have hw : Plan.Writable ⟨.little, [⟨.table 0, 18, some 8⟩, ⟨.table 1, 18, some 26⟩,
        ⟨.value 1 0, 6, some 44⟩], [⟨0, Tag.exifPointer, 1⟩], [], 0⟩
      (Plan.patch ⟨.little, [⟨.table 0, 18, some 8⟩, ⟨.table 1, 18, some 26⟩,
          ⟨.value 1 0, 6, some 44⟩], [⟨0, Tag.exifPointer, 1⟩], [], 0⟩
        ⟨.little, [⟨.root, .little, [Field.long Tag.exifPointer 0 .little], none⟩,
          ⟨.exif, .little, [Field.undefined ⟨0x9286⟩ ⟨#[1, 2, 3, 4, 5, 6]⟩], none⟩]⟩).1
      ⟨.table 1, 18, some 26⟩ := by
    intro i hi
    cases hi
    refine ⟨fun x hx => ?_, fun j id hid => ?_, fun n hn => ?_⟩
    · have hlen : some 1 = some x.fields.length := congrArg (Option.map fun y : Directory => y.fields.length) hx
      rw [← Option.some.inj hlen]
      decide
    · simp [valueItem?, List.findIdx?_cons] at hid
      obtain ⟨-, rfl⟩ := hid
      exact ⟨44, rfl, by decide⟩
    · cases hn
  exact ⟨hwf, _, _, _, _, hplan, hrun, rfl, hw, writeItem_footprint hwf hplan hrun rfl rfl hw (zeros 50)⟩

end Plan

end TiffLayout
