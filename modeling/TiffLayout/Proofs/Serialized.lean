import TiffLayout.Proofs.Filled
import TiffLayout.Proofs.Image
/-! What an item serializes. Output that does not fail has exactly the item's length: an entry
table two bytes of count, twelve bytes per entry and four of next-directory offset, a value its
payload and a thumbnail its data. Writing the pointers changes structural fields only, which a
planned draft holds inline, so every out-of-line value is serialized as it was planned. -/
namespace TiffLayout

namespace Emission

/-- Pieces whose output is exactly `n` bytes when none of them fails. -/
def Exact (n : Nat) (ps : List (Except LayoutError (List UInt8))) : Prop :=
  (ofPieces ps).stop = none → (ofPieces ps).bytes.length = n

theorem Exact.nil : Exact 0 [] := fun _ => rfl

theorem Exact.of_eq {m n : Nat} {ps : List (Except LayoutError (List UInt8))} (h : Exact m ps)
    (hmn : m = n) : Exact n ps :=
  hmn ▸ h

theorem Exact.cons {m n : Nat} {r : Except LayoutError (List UInt8)}
    {ps : List (Except LayoutError (List UInt8))} (hr : ∀ b, r = .ok b → b.length = m)
    (hps : Exact n ps) : Exact (m + n) (r :: ps) := by
  intro hstop
  cases r with
  | ok b =>
    simp only [ofPieces, List.length_append] at hstop ⊢
    rw [hr b rfl, hps hstop]
  | error e => simp [ofPieces] at hstop

theorem Exact.append {m n : Nat} {ps qs : List (Except LayoutError (List UInt8))}
    (hps : Exact m ps) (hqs : Exact n qs) : Exact (m + n) (ps ++ qs) := by
  intro hstop
  obtain ⟨h₁, h₂⟩ := stop_append hstop
  rw [ofPieces_append h₁, List.length_append, hps h₁, hqs h₂]

theorem Exact.flatMap {α : Type} {k : Nat} {g : α → List (Except LayoutError (List UInt8))}
    (hg : ∀ a, Exact k (g a)) : ∀ l : List α, Exact (k * l.length) (l.flatMap g)
  | [] => Exact.nil
  | a :: l => by
    rw [List.flatMap_cons, List.length_cons, Nat.mul_succ, Nat.add_comm]
    exact (hg a).append (Exact.flatMap hg l)

end Emission

namespace Field

@[simp] theorem size_long (t : Tag) (v : Nat) (o : ByteOrder) : (long t v o).bytes.size = 4 := by
  simp [long, raw, ByteArray.size]

end Field

namespace Directory

/-- What writing the pointers keeps of a directory: the number of its fields, its thumbnail and
every out-of-line field. -/
structure Repointed (x y : Directory) : Prop where
  length : y.fields.length = x.fields.length
  thumbnail : y.thumbnail = x.thumbnail
  outOfLine : ∀ (j : Nat) (f : Field), x.fields[j]? = some f → f.outOfLine → y.fields[j]? = some f

/-- A synthesized directory holds its structural fields inline: they are its placeholders. -/
theorem inline_of_structural {x : Directory} {present : List DirectoryKind} {o : ByteOrder}
    {f : Field} (hf : f ∈ (x.withPlaceholders present o).sortFields.fields)
    (hs : f.tag.isStructural = true) : f.outOfLine = false := by
  rcases mem_sortFields_withPlaceholders.1 hf with ⟨-, hns⟩ | hp | ht
  · rw [hs] at hns
    cases hns
  · obtain ⟨c, -, -, t, -, rfl⟩ := mem_pointerFields.1 hp
    simp [Field.outOfLine]
  · obtain ⟨th, -, rfl | rfl⟩ := mem_thumbnailFields.1 ht <;> simp [Field.outOfLine]

end Directory

/-- Every directory of `d'` keeps what writing the pointers keeps of the directory of `d` at the
same index. -/
def Draft.Repointed (d d' : Draft) : Prop :=
  ∀ (i : Nat) (x y : Directory), d.dirs[i]? = some x → d'.dirs[i]? = some y → x.Repointed y

namespace Plan

open Emission

/-- Pointers that name structural fields, written into a directory that holds those inline,
leave every out-of-line field as it was. -/
theorem Patched.repointed {p : Plan} {qs : List Pointer} {i : Nat} {x x' : Directory}
    (h : Patched p qs i x x') (hqs : ∀ q ∈ qs, q.tag.isStructural)
    (hinline : ∀ f ∈ x.fields, f.tag.isStructural = true → f.outOfLine = false) :
    x.Repointed x' where
  length := h.length
  thumbnail := h.thumbnail
  outOfLine j f hf hout := by
    have hj : j < x'.fields.length := h.length ▸ (List.getElem?_eq_some_iff.1 hf).1
    rcases h.field j f _ hf (List.getElem?_eq_getElem hj) with ⟨heq, -⟩ | ⟨q, hq, -, htag, -⟩
    · rw [List.getElem?_eq_getElem hj, heq]
    · have hs := hqs q hq
      rw [htag] at hs
      rw [hinline f (List.mem_of_getElem? hf) hs] at hout
      cases hout

/-- The bytes that an item serializes in a draft, up to the first failure. -/
def output (p : Plan) (it : Item) (d : Draft) : List UInt8 := (ofPieces (p.pieces it d)).bytes

/-- An entry table is two bytes of count, twelve per entry and four of next-directory offset. -/
theorem tablePieces_exact (p : Plan) (i : Nat) (x : Directory) :
    Exact (Ifd.tableLength x.fields.length) (p.tablePieces i x) := by
  have hcount : ∀ b, (checked (Width.bits16.narrow x.fields.length)).map (p.byteOrder.encode 2) =
      .ok b → b.length = 2 := by
    intro b hb
    cases h : checked (Width.bits16.narrow x.fields.length) with
    | error e => simp [h, Except.map] at hb
    | ok w =>
      simp only [h, Except.map, Except.ok.injEq] at hb
      rw [← hb, ByteOrder.length_encode]
  have hentry : ∀ a : Field × Nat, Exact 12
      [.ok (p.byteOrder.encode 2 a.1.tag.code.toNat ++ p.byteOrder.encode 2 a.1.type.code.toNat ++
        p.byteOrder.encode 4 a.1.count), p.slotPiece i a.2 a.1] := fun a =>
    Exact.cons (m := 8) (fun b hb => by simp [← Except.ok.inj hb])
      (Exact.cons (fun s hs => slotPiece_length hs) Exact.nil)
  have hnext : ∀ nb, p.nextPiece i = .ok nb → nb.length = 4 := by
    intro nb hnb
    obtain ⟨m, -, rfl⟩ := nextPiece_eq_ok hnb
    exact ByteOrder.length_encode ..
  refine (Exact.cons hcount ((Exact.flatMap hentry x.fields.zipIdx).append
    (Exact.cons hnext Exact.nil))).of_eq ?_
  simp only [List.length_zipIdx, Ifd.tableLength, entrySize]
  omega

/-- A sized item serializes exactly its length in a draft whose pointers are written. -/
theorem pieces_exact {p : Plan} {d d' : Draft} {it : Item} (hsized : it.Sized d)
    (hrep : d.Repointed d') : Exact it.length (p.pieces it d') := by
  rcases it with ⟨part, length, offset⟩
  unfold Item.Sized at hsized
  unfold pieces
  cases part with
  | table i =>
    obtain ⟨x, hx, hlen⟩ := hsized
    dsimp only at hlen ⊢
    split
    · rename_i y hy
      rw [hlen, ← (hrep i x y hx hy).length]
      exact tablePieces_exact p i y
    · intro h
      cases h
  | value i j =>
    obtain ⟨x, f, hx, hf, hout, hlen⟩ := hsized
    dsimp only at hlen ⊢
    split
    · rename_i f' hf'
      obtain ⟨y, hy, hf'⟩ := Option.bind_eq_some_iff.1 hf'
      rw [(hrep i x y hx hy).outOfLine j f hf hout, Option.some.injEq] at hf'
      subst hf'
      refine (Exact.cons (m := length) (fun b hb => ?_) Exact.nil).of_eq (Nat.add_zero _)
      rw [← Except.ok.inj hb, Array.length_toList]
      exact hlen.symm
    · intro h
      cases h
  | thumbnail i =>
    obtain ⟨x, t, hx, ht, hlen⟩ := hsized
    dsimp only at hlen ⊢
    split
    · rename_i t' ht'
      obtain ⟨y, hy, ht'⟩ := Option.bind_eq_some_iff.1 ht'
      rw [(hrep i x y hx hy).thumbnail, ht, Option.some.injEq] at ht'
      subst ht'
      refine (Exact.cons (m := length) (fun b hb => ?_) Exact.nil).of_eq (Nat.add_zero _)
      rw [← Except.ok.inj hb, Array.length_toList]
      exact hlen.symm
    · intro h
      cases h

/-- Writing the pointers of a planned and placed well-formed draft keeps every out-of-line
value. -/
theorem patch_repointed {d d₂ d₃ : Draft} {p₀ p : Plan} (hwf : d.Coherent)
    (hplan : d.plan = (d₂, .ok p₀)) (hp : p₀.Placed p) (hpatch : p.patch d₂ = (d₃, .ok ())) :
    d₂.Repointed d₃ := by
  obtain ⟨root, -, -, hsyn, hof⟩ := Draft.plan_eq_ok hplan
  have hd₂ := Draft.synthesize_eq_ok hsyn hwf.distinctTags
  obtain ⟨-, -, hpatched⟩ := patch_patched hwf hplan hp hpatch
  intro i x y hx hy
  obtain ⟨x', hx', hP⟩ := hpatched i x hx
  rw [hy, Option.some.injEq] at hx'
  subst hx'
  refine hP.repointed (fun q hq => Placed.pointer_structural hof hp hq) ?_
  rw [hd₂, List.getElem?_map, Option.map_eq_some_iff] at hx
  obtain ⟨x₀, -, rfl⟩ := hx
  exact fun f hf hs => Directory.inline_of_structural hf hs

end Plan

end TiffLayout
