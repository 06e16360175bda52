import TiffLayout.Proofs.Image
import TiffLayout.Proofs.Placement
import TiffLayout.Proofs.Emission
/-! What writing leaves in the buffer. The header stands at the start; an item written without
failure puts its output at its offset; and of items whose spans are apart from each other, each
stands in the buffer once all are written, while the bytes that no span meets are kept. -/
namespace TiffLayout

open Buffer Emission

theorem length_header (o : ByteOrder) (root : Nat) :
    (o.marker ++ o.encode 2 magic ++ o.encode 4 root).length = headerSize := by
  cases o <;> simp [ByteOrder.marker, headerSize]

/-- A header written without failure names a 32-bit root offset and stands at the start, and
the bytes after it are kept. -/
theorem writeHeader_eq_ok {buf buf' : ByteArray} {o : ByteOrder} {root : Nat}
    (h : writeHeader buf o root = .ok buf') :
    root < Width.bits32.bound ∧ Holds buf' 0 (o.marker ++ o.encode 2 magic ++ o.encode 4 root) ∧
      ∀ {q : Nat} {bs : List UInt8}, Holds buf q bs → headerSize ≤ q → Holds buf' q bs := by
  unfold writeHeader at h
  split at h
  · rename_i buf₁ he
    cases h
    cases hoff : Plan.offsetBytes o root with
    | error e =>
      simp only [emitAt, ofPieces, hoff] at he
      split at he <;> simp at he
    | ok bs =>
      obtain ⟨hlt, rfl⟩ := Plan.offsetBytes_eq_ok hoff
      refine ⟨hlt, ?_⟩
      unfold emitAt at he
      simp only [ofPieces, hoff, List.append_nil] at he
      split at he
      · simp at he
      · rename_i hfit
        obtain ⟨rfl, -⟩ := Prod.mk.inj he
        have hlen := length_header o root
        unfold headerSize at hlen
        have hne : o.marker ++ o.encode 2 magic ++ o.encode 4 root ≠ [] :=
          List.ne_nil_of_length_pos (by omega)
        refine ⟨put_holds ?_, fun hq hheader => hq.put_apart (Or.inl ?_)⟩
        · by_contra hlt
          exact hfit ⟨hne, by omega⟩
        · unfold headerSize at hheader
          omega
  · cases h

namespace Plan

variable {p : Plan} {d : Draft}

/-- An item written without failure puts the bytes of its output at its offset. -/
theorem writeItem_eq_ok {id : Nat} {buf buf' : ByteArray} (h : p.writeItem id d buf = (buf', .ok ())) :
    ∃ it off bs, p.items[id]? = some it ∧ it.offset = some off ∧
      ofPieces (p.pieces it d) = ⟨bs, none⟩ ∧ buf' = put buf off bs := by
  unfold writeItem at h
  split at h
  · simp at h
  · rename_i it hit
    split at h
    · simp at h
    · rename_i off hoff
      unfold emitAt at h
      generalize hE : ofPieces (p.pieces it d) = E at h
      obtain ⟨bs, stop⟩ := E
      dsimp only at h
      split at h
      · simp at h
      · cases stop with
        | some err => simp at h
        | none => exact ⟨it, off, bs, hit, hoff, hE, (Prod.mk.inj h).1.symm⟩

/-- Writing a list of items writes the first at its offset, then the others. -/
theorem writeItems_cons_eq_ok {id : Nat} {ids : List Nat} {buf buf' : ByteArray}
    (h : p.writeItems d (id :: ids) buf = .ok buf') :
    ∃ it off bs, p.items[id]? = some it ∧ it.offset = some off ∧
      ofPieces (p.pieces it d) = ⟨bs, none⟩ ∧ p.writeItems d ids (put buf off bs) = .ok buf' := by
  unfold writeItems at h
  split at h
  · rename_i buf₁ h₁
    obtain ⟨it, off, bs, hit, hoff, hbs, rfl⟩ := writeItem_eq_ok h₁
    exact ⟨it, off, bs, hit, hoff, hbs, h⟩
  · cases h

section Run

/- Every item's output is at most its length, so writing an item touches its span alone. -/
variable (hemit : ∀ (id : Nat) (it : Item), p.items[id]? = some it → Emits it.length (p.pieces it d))
include hemit

/-- Writing items keeps the bytes that no item's span meets. -/
theorem writeItems_keeps : ∀ {ids : List Nat} {buf buf' : ByteArray},
    p.writeItems d ids buf = .ok buf' → ∀ {o : Nat} {cs : List UInt8}, Holds buf o cs →
      (∀ id ∈ ids, ∀ r, p.span? id = some r → r.Apart ⟨o, cs.length⟩) → Holds buf' o cs
  | [], buf, buf', h, o, cs, hcs, _ => by
    simp only [writeItems, Except.ok.injEq] at h
    exact h ▸ hcs
  | id :: ids, buf, buf', h, o, cs, hcs, hapart => by
    obtain ⟨it, off, bs, hit, hoff, hbs, hrest⟩ := writeItems_cons_eq_ok h
    have hspan : p.span? id = some ⟨off, it.length⟩ := by simp [span?, hit, hoff]
    have hlen := (hemit id it hit).length
    rw [hbs] at hlen
    have happ := hapart id List.mem_cons_self _ hspan
    refine writeItems_keeps hrest (hcs.put_apart ?_) fun i hi => hapart i (List.mem_cons_of_mem _ hi)
    unfold Extent.Apart Extent.stop at happ
    dsimp only at happ hlen
    omega

/-- Items written at spans inside the buffer and apart from each other all stand in it at the
end, each at its offset. -/
theorem writeItems_holds : ∀ {ids : List Nat} {buf buf' : ByteArray},
    p.writeItems d ids buf = .ok buf' → ids.Nodup →
    (∀ a ∈ ids, ∀ b ∈ ids, a ≠ b → ∀ r q, p.span? a = some r → p.span? b = some q → r.Apart q) →
    (∀ id ∈ ids, ∀ r, p.span? id = some r → r.stop ≤ buf.size) →
    ∀ id ∈ ids, ∃ it off bs, p.items[id]? = some it ∧ it.offset = some off ∧
      ofPieces (p.pieces it d) = ⟨bs, none⟩ ∧ Holds buf' off bs
  | [], _, _, _, _, _, _, id, hid => absurd hid List.not_mem_nil
  | id :: ids, buf, buf', h, hnd, hapart, hroom, j, hj => by
    obtain ⟨it, off, bs, hit, hoff, hbs, hrest⟩ := writeItems_cons_eq_ok h
    have hspan : p.span? id = some ⟨off, it.length⟩ := by simp [span?, hit, hoff]
    have hlen := (hemit id it hit).length
    rw [hbs] at hlen
    have hstop := hroom id List.mem_cons_self _ hspan
    unfold Extent.stop at hstop
    rcases List.mem_cons.1 hj with rfl | hj
    · refine ⟨it, off, bs, hit, hoff, hbs, writeItems_keeps hemit hrest (put_holds ?_) fun i hi r hr => ?_⟩
      · dsimp only at hstop hlen
        omega
      · have hne : i ≠ j := fun hij => (List.nodup_cons.1 hnd).1 (hij ▸ hi)
        have happ := hapart i (List.mem_cons_of_mem _ hi) j List.mem_cons_self hne r _ hr hspan
        unfold Extent.Apart Extent.stop at happ ⊢
        dsimp only at happ hlen ⊢
        omega
    · exact writeItems_holds hrest (List.nodup_cons.1 hnd).2
        (fun a ha b hb => hapart a (List.mem_cons_of_mem _ ha) b (List.mem_cons_of_mem _ hb))
        (fun i hi r hr => by rw [size_put]; exact hroom i (List.mem_cons_of_mem _ hi) r hr) j hj

end Run

end Plan

end TiffLayout
