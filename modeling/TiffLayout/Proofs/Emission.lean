import TiffLayout.Plan.Emit
import TiffLayout.Proofs.Items
/-! Output stays inside the buffer. Every piece of an item's output has a fixed width, so an
item emits at most its length; patching writes four bytes into each pointer field, which keeps
that bound. Items written at offsets that leave room for their length never overrun. -/
namespace TiffLayout

namespace Emission

/-- A piece of at most `n` bytes, or a failure other than an overrun. -/
def Fits (n : Nat) : Except LayoutError (List UInt8) → Prop
  | .ok b => b.length ≤ n
  | .error e => e ≠ .overrun

@[simp] theorem fits_ok {n : Nat} {b : List UInt8} : Fits n (.ok b) ↔ b.length ≤ n := Iff.rfl

@[simp] theorem fits_error {n : Nat} {e : LayoutError} : Fits n (.error e) ↔ e ≠ .overrun :=
  Iff.rfl

/-- Output of at most `n` bytes before its first failure, which is not an overrun. -/
structure Emits (n : Nat) (ps : List (Except LayoutError (List UInt8))) : Prop where
  length : (ofPieces ps).bytes.length ≤ n
  stop : (ofPieces ps).stop ≠ some .overrun

theorem Fits.bind {α : Type} {n : Nat} {x : Except LayoutError α}
    {f : α → Except LayoutError (List UInt8)} (hx : x ≠ .error .overrun) (hf : ∀ a, Fits n (f a)) :
    Fits n (x >>= f) := by
  cases x with
  | error e => exact fun h => hx (h ▸ rfl)
  | ok a => exact hf a

theorem Emits.nil (n : Nat) : Emits n [] := ⟨Nat.zero_le n, by simp [ofPieces]⟩

theorem Emits.mono {m n : Nat} {ps : List (Except LayoutError (List UInt8))} (h : Emits m ps)
    (hle : m ≤ n) : Emits n ps :=
  ⟨Nat.le_trans h.length hle, h.stop⟩

theorem Emits.cons {m n : Nat} {r : Except LayoutError (List UInt8)}
    {ps : List (Except LayoutError (List UInt8))} (hr : Fits m r) (hps : Emits n ps) :
    Emits (m + n) (r :: ps) := by
  cases r with
  | ok b =>
    have hb : b.length ≤ m := hr
    have hlen := hps.length
    exact ⟨by simp only [ofPieces, List.length_append]; omega, by simpa [ofPieces] using hps.stop⟩
  | error e => exact ⟨by simp [ofPieces], by simpa [ofPieces] using fits_error.1 hr⟩

theorem Emits.error {n : Nat} {e : LayoutError} (he : e ≠ .overrun) : Emits n [.error e] :=
  (Emits.cons (m := n) (fits_error.2 he) (Emits.nil 0)).mono (Nat.le_refl _)

/-- Output made of two parts emits at most the sum of their bounds; a failure in the first
part stops it there. -/
theorem Emits.append {m n : Nat} {ps qs : List (Except LayoutError (List UInt8))}
    (hps : Emits m ps) (hqs : Emits n qs) : Emits (m + n) (ps ++ qs) := by
  induction ps generalizing m with
  | nil => exact hqs.mono (by omega)
  | cons r ps ih =>
    cases r with
    | ok b =>
      have hlen := hps.length
      simp only [ofPieces, List.length_append] at hlen
      have hrest := ih ⟨Nat.le_sub_of_add_le' hlen, by simpa [ofPieces] using hps.stop⟩
      have hlen' := hrest.length
      exact ⟨by simp only [List.cons_append, ofPieces, List.length_append]; omega,
        by simpa [ofPieces] using hrest.stop⟩
    | error e => exact ⟨by simp [ofPieces], by simpa [ofPieces] using hps.stop⟩

/-- Output made of one part per element, each of at most `n` bytes. -/
theorem Emits.flatMap {α : Type} {n : Nat} {g : α → List (Except LayoutError (List UInt8))}
    (hg : ∀ a, Emits n (g a)) : ∀ l : List α, Emits (n * l.length) (l.flatMap g)
  | [] => Emits.nil _
  | a :: l => by
    rw [List.flatMap_cons, List.length_cons, Nat.mul_succ, Nat.add_comm]
    exact (hg a).append (Emits.flatMap hg l)

end Emission

open Emission

namespace Plan

theorem offsetBytes_fits (o : ByteOrder) (n : Nat) : Fits 4 (offsetBytes o n) := by
  unfold offsetBytes
  cases h : checked (Width.bits32.narrow n) with
  | error e =>
    obtain ⟨a, rfl⟩ := checked_eq_error h
    simp [Fits]
  | ok w => simp [Fits, pure, Except.pure]

theorem itemOffset_ne_overrun (p : Plan) (id : Nat) : p.itemOffset id ≠ .error .overrun := by
  unfold itemOffset Item.offset?
  split
  · split <;> simp
  · simp

theorem dirOffset_ne_overrun (p : Plan) (i : Nat) : p.dirOffset i ≠ .error .overrun := by
  unfold dirOffset
  split
  · exact itemOffset_ne_overrun p _
  · simp

theorem slotPiece_fits (p : Plan) (i j : Nat) (f : Field) : Fits 4 (p.slotPiece i j f) := by
  unfold slotPiece
  split
  · split
    · exact Fits.bind (itemOffset_ne_overrun p _) (offsetBytes_fits _)
    · simp [Fits]
  · simp [Fits]

/-- An entry table emits at most the length of a table of its fields. -/
theorem tablePieces_emits (p : Plan) (i : Nat) (x : Directory) :
    Emits (Ifd.tableLength x.fields.length) (p.tablePieces i x) := by
  have hcount : Fits 2 ((checked (Width.bits16.narrow x.fields.length)).map
      (p.byteOrder.encode 2)) := by
    cases h : checked (Width.bits16.narrow x.fields.length) with
    | error e =>
      obtain ⟨a, rfl⟩ := checked_eq_error h
      simp [Fits, Except.map]
    | ok w => simp [Fits, Except.map]
  have hentry : ∀ a : Field × Nat, Emits 12
      [.ok (p.byteOrder.encode 2 a.1.tag.code.toNat ++ p.byteOrder.encode 2 a.1.type.code.toNat ++
        p.byteOrder.encode 4 a.1.count), p.slotPiece i a.2 a.1] := fun a =>
    Emits.cons (m := 8) (by simp [Fits]) (Emits.cons (slotPiece_fits p i a.2 a.1) (Emits.nil 0))
  have hnext : Fits 4 (p.nextPiece i) := by
    unfold nextPiece
    split
    · exact Fits.bind (dirOffset_ne_overrun p _) (offsetBytes_fits _)
    · simp [Fits]
  have h := Emits.cons hcount
    ((Emits.flatMap hentry x.fields.zipIdx).append (Emits.cons hnext (Emits.nil 0)))
  refine h.mono ?_
  simp only [List.length_zipIdx, Ifd.tableLength, entrySize]
  omega

end Plan

/-- What patching keeps of a directory: the number of its fields and its thumbnail; a field's
payload changes only into one of at most four bytes. -/
structure Directory.Resized (x y : Directory) : Prop where
  length : y.fields.length = x.fields.length
  thumbnail : y.thumbnail = x.thumbnail
  field : ∀ (j : Nat) (f f' : Field), x.fields[j]? = some f → y.fields[j]? = some f' →
    f'.bytes.size ≤ max f.bytes.size 4

/-- Every directory of `d'` is a resized directory of `d` at the same index. -/
structure Draft.Resized (d d' : Draft) : Prop where
  dir : ∀ (i : Nat) (x y : Directory), d.dirs[i]? = some x → d'.dirs[i]? = some y → x.Resized y

theorem Directory.Resized.refl (x : Directory) : x.Resized x where
  length := rfl
  thumbnail := rfl
  field j f f' hf hf' := by
    rw [hf, Option.some.injEq] at hf'
    exact hf' ▸ Nat.le_max_left _ _

theorem Draft.Resized.refl (d : Draft) : d.Resized d where
  dir i x y hx hy := by
    rw [hx, Option.some.injEq] at hy
    exact hy ▸ Directory.Resized.refl x

theorem updateField_go_length (t : Tag) (g : Field → Field) :
    ∀ fs, (Directory.updateField.go t g fs).length = fs.length
  | [] => rfl
  | f :: fs => by
    unfold Directory.updateField.go
    split <;> simp [updateField_go_length t g fs]

theorem updateField_go_getElem? {t : Tag} {g : Field → Field} :
    ∀ {fs : List Field} {j : Nat} {f' : Field}, (Directory.updateField.go t g fs)[j]? = some f' →
      ∃ f, fs[j]? = some f ∧ (f' = f ∨ f' = g f)
  | [], j, f', h => by simp [Directory.updateField.go] at h
  | f :: fs, j, f', h => by
    unfold Directory.updateField.go at h
    split at h
    · cases j with
      | zero => exact ⟨f, rfl, Or.inr (Option.some.inj h).symm⟩
      | succ j =>
        rw [List.getElem?_cons_succ] at h
        exact ⟨f', by rw [List.getElem?_cons_succ, h], Or.inl rfl⟩
    · cases j with
      | zero => exact ⟨f, rfl, Or.inl (Option.some.inj h).symm⟩
      | succ j =>
        rw [List.getElem?_cons_succ] at h
        obtain ⟨f₁, hf₁, hor⟩ := updateField_go_getElem? h
        exact ⟨f₁, by rw [List.getElem?_cons_succ, hf₁], hor⟩

/-- Changing a field into one of at most four bytes keeps a directory resized. -/
theorem Directory.Resized.updateField {x y : Directory} (h : x.Resized y) {t : Tag}
    {g : Field → Field} (hg : ∀ f, (g f).bytes.size ≤ 4) : x.Resized (y.updateField t g) where
  length := (updateField_go_length t g y.fields).trans h.length
  thumbnail := h.thumbnail
  field j f f' hf hf' := by
    obtain ⟨f₁, hf₁, heq | heq⟩ := updateField_go_getElem? hf'
    · exact heq ▸ h.field j f f₁ hf hf₁
    · exact heq ▸ Nat.le_trans (hg f₁) (Nat.le_max_right _ _)

theorem Draft.Resized.updateField {d₀ d : Draft} (h : d₀.Resized d) (i : Nat) {t : Tag}
    {g : Field → Field} (hg : ∀ f, (g f).bytes.size ≤ 4) :
    d₀.Resized { d with dirs := d.dirs.modify i (·.updateField t g) } := by
  constructor
  intro j x z hx hz
  rw [List.getElem?_modify] at hz
  cases hy : d.dirs[j]? with
  | none => simp [hy] at hz
  | some y =>
    rw [hy, Option.map_eq_map, Option.map_some, Option.some.injEq] at hz
    subst hz
    split
    · exact (h.dir j x y hx hy).updateField hg
    · exact h.dir j x y hx hy

namespace Plan

/-- Patching resizes the draft, and fails, if it does, with a failure other than an overrun. -/
theorem patchFrom_resized {p : Plan} : ∀ {qs : List Pointer} {d₀ d d' : Draft}
    {r : Except LayoutError Unit}, p.patchFrom qs d = (d', r) → d₀.Resized d →
      d₀.Resized d' ∧ r ≠ .error .overrun
  | [], d₀, d, d', r, h, hres => by
    simp only [patchFrom, Prod.mk.injEq] at h
    obtain ⟨rfl, rfl⟩ := h
    exact ⟨hres, by simp⟩
  | q :: qs, d₀, d, d', r, h, hres => by
    have hfits := Fits.bind (itemOffset_ne_overrun p q.target) (offsetBytes_fits p.byteOrder)
    unfold patchFrom at h
    split at h
    · rename_i e he
      simp only [Prod.mk.injEq] at h
      obtain ⟨rfl, rfl⟩ := h
      rw [he] at hfits
      exact ⟨hres, fun h => hfits (Except.error.inj h)⟩
    · rename_i bytes hbytes
      rw [hbytes] at hfits
      split at h
      · simp only [Prod.mk.injEq] at h
        obtain ⟨rfl, rfl⟩ := h
        exact ⟨hres, by simp⟩
      · refine patchFrom_resized h (hres.updateField q.dir fun f => ?_)
        simpa [Field.setBytes, ByteArray.size] using hfits

theorem patch_resized {p : Plan} {d d' : Draft} {r : Except LayoutError Unit}
    (h : p.patch d = (d', r)) : d.Resized d' ∧ r ≠ .error .overrun :=
  patchFrom_resized h (Draft.Resized.refl d)

/-- A sized item emits at most its length in a resized draft. -/
theorem pieces_emits {p : Plan} {d d' : Draft} {it : Item} (hsized : it.Sized d)
    (hres : d.Resized d') : Emits it.length (p.pieces it d') := by
  rcases it with ⟨part, length, offset⟩
  unfold Item.Sized at hsized
  unfold pieces
  cases part with
  | table i =>
    obtain ⟨x, hx, hlen⟩ := hsized
    dsimp only at hlen ⊢
    split
    · rename_i y hy
      rw [hlen, ← (hres.dir i x y hx hy).length]
      exact tablePieces_emits p i y
    · exact Emits.error (by simp)
  | value i j =>
    obtain ⟨x, f, hx, hf, hout, hlen⟩ := hsized
    dsimp only at hlen ⊢
    split
    · rename_i f' hf'
      obtain ⟨y, hy, hf'⟩ := Option.bind_eq_some_iff.1 hf'
      have hsize := (hres.dir i x y hx hy).field j f f' hf hf'
      have hout' : 4 < f.bytes.size := by simpa [Field.outOfLine] using hout
      -- an out-of-line value is longer than any patched payload
      rw [Nat.max_eq_left (Nat.le_of_lt hout')] at hsize
      refine (Emits.cons (m := length) ?_ (Emits.nil 0)).mono (Nat.le_refl _)
      rw [fits_ok, Array.length_toList]
      exact hlen ▸ hsize
    · exact Emits.error (by simp)
  | thumbnail i =>
    obtain ⟨x, t, hx, ht, hlen⟩ := hsized
    dsimp only at hlen ⊢
    split
    · rename_i t' ht'
      obtain ⟨y, hy, ht'⟩ := Option.bind_eq_some_iff.1 ht'
      rw [(hres.dir i x y hx hy).thumbnail, ht, Option.some.injEq] at ht'
      subst ht'
      refine (Emits.cons (m := length) ?_ (Emits.nil 0)).mono (Nat.le_refl _)
      rw [fits_ok, Array.length_toList]
      exact Nat.le_of_eq hlen.symm
    · exact Emits.error (by simp)

end Plan

namespace Buffer

/-- Output that fits the room left after its offset does not overrun. -/
theorem emitAt_ne_overrun {buf : ByteArray} {o n : Nat} {ps : List (Except LayoutError (List UInt8))}
    (h : Emits n ps) (hroom : o + n ≤ buf.size) : (emitAt buf o ps).2 ≠ .error .overrun := by
  have hlen := h.length
  unfold emitAt
  dsimp only
  split
  · rename_i hover
    omega
  · split
    · rename_i err herr
      have hstop := h.stop
      rw [herr] at hstop
      exact fun h => hstop (by rw [Except.error.inj h])
    · simp

end Buffer

namespace Plan

theorem size_writeItem (p : Plan) (id : Nat) (d : Draft) (buf : ByteArray) :
    (p.writeItem id d buf).1.size = buf.size := by
  unfold writeItem
  split
  · rfl
  · split
    · rfl
    · exact Buffer.size_emitAt ..

theorem size_writeItems {p : Plan} {d : Draft} : ∀ {ids : List Nat} {buf buf' : ByteArray},
    p.writeItems d ids buf = .ok buf' → buf'.size = buf.size
  | [], buf, buf', h => by
    simp only [writeItems, Except.ok.injEq] at h
    rw [h]
  | id :: ids, buf, buf', h => by
    have hsize := size_writeItem p id d buf
    unfold writeItems at h
    split at h
    · rename_i buf₁ h₁
      rw [h₁] at hsize
      rw [size_writeItems h, hsize]
    · cases h

/-- Writing items that each fit the room after their offset never overruns. -/
theorem writeItems_ne_overrun {p : Plan} {d : Draft} {n : Nat} : ∀ {ids : List Nat} {buf : ByteArray},
    buf.size = n → (∀ id ∈ ids, ∀ it, p.items[id]? = some it → ∀ o, it.offset = some o →
      o + it.length ≤ n ∧ Emits it.length (p.pieces it d)) →
    p.writeItems d ids buf ≠ .error .overrun
  | [], buf, _, _ => by simp [writeItems]
  | id :: ids, buf, hsize, hids => by
    have hitem : (p.writeItem id d buf).2 ≠ .error .overrun := by
      unfold writeItem
      split
      · simp
      · rename_i it hit
        split
        · simp
        · rename_i o ho
          obtain ⟨hroom, hemits⟩ := hids id List.mem_cons_self it hit o ho
          exact Buffer.emitAt_ne_overrun hemits (hsize ▸ hroom)
    have hsize' := size_writeItem p id d buf
    unfold writeItems
    split
    · rename_i buf' hw
      rw [hw] at hsize'
      exact writeItems_ne_overrun (hsize' ▸ hsize) fun id' hid' => hids id' (List.mem_cons_of_mem _ hid')
    · rename_i e hw
      rw [hw] at hitem
      simpa using hitem

end Plan

/-- The header is eight bytes, so a buffer that holds them takes it without overrun. -/
theorem writeHeader_ne_overrun {buf : ByteArray} {o : ByteOrder} {root : Nat}
    (h : headerSize ≤ buf.size) : writeHeader buf o root ≠ .error .overrun := by
  have hmarker : (o.marker ++ o.encode 2 magic).length = 4 := by
    cases o <;> simp [ByteOrder.marker]
  have hemits : Emits 8 [.ok (o.marker ++ o.encode 2 magic), Plan.offsetBytes o root] :=
    Emits.cons (m := 4) (fits_ok.2 (Nat.le_of_eq hmarker))
      (Emits.cons (Plan.offsetBytes_fits o root) (Emits.nil 0))
  have hroom := Buffer.emitAt_ne_overrun (o := 0) hemits (by simpa [headerSize] using h)
  unfold writeHeader
  split
  · simp
  · rename_i e he
    rw [he] at hroom
    simpa using hroom

theorem size_writeHeader {buf buf' : ByteArray} {o : ByteOrder} {root : Nat}
    (h : writeHeader buf o root = .ok buf') : buf'.size = buf.size := by
  unfold writeHeader at h
  split at h
  · rename_i buf₁ he
    have hsize := Buffer.size_emitAt buf 0 [.ok (o.marker ++ o.encode 2 magic),
      Plan.offsetBytes o root]
    rw [he] at hsize
    rw [← Except.ok.inj h]
    exact hsize
  · cases h

end TiffLayout
