import Mathlib.Algebra.GroupWithZero.Nat
import TiffLayout.Proofs.Compact
import TiffLayout.Proofs.Serialized
/-! Compact output byte for byte: the header naming the root table, then each item in plan order
followed by a zero byte when its length is odd. -/
namespace TiffLayout

open Buffer Emission

namespace Buffer

/-- Blocks laid end to end stand in a buffer when each stands at the total length of those
before it. -/
theorem holds_flatMap_of {α : Type} {buf : ByteArray} {g : α → List UInt8} :
    ∀ {l : List α} {off : Nat}, off + (l.flatMap g).length ≤ buf.size →
      (∀ i (hi : i < l.length), Holds buf (off + ((l.take i).flatMap g).length) (g l[i])) →
      Holds buf off (l.flatMap g)
  | [], _, hbound, _ => ⟨hbound, fun i hi => absurd hi (Nat.not_lt_zero i)⟩
  | a :: l, off, hbound, h => by
    rw [List.flatMap_cons, List.length_append] at hbound
    rw [List.flatMap_cons]
    have hfirst : Holds buf off (g a) := by simpa using h 0 (Nat.zero_lt_succ _)
    refine holds_append.2 ⟨hfirst, holds_flatMap_of (by omega) fun i hi => ?_⟩
    have hnext := h (i + 1) (Nat.succ_lt_succ hi)
    simpa [List.flatMap_cons, Nat.add_assoc] using hnext

/-- Bytes that stand from the start of a buffer and are as long as it are the whole buffer. -/
theorem Holds.toList_eq {buf : ByteArray} {bs : List UInt8} (h : Holds buf 0 bs)
    (hsize : buf.size = bs.length) : buf.data.toList = bs := by
  have htake := h.drop_take
  rwa [List.drop_zero, List.take_of_length_le (by rw [Array.length_toList]; exact Nat.le_of_eq hsize)]
    at htake

theorem holds_zeros {n off k : Nat} (h : off + k ≤ n) : Holds (zeros n) off (List.replicate k 0) where
  bound := by simpa using h
  get i hi := by
    simp only [List.length_replicate] at hi
    simp [zeros, hi, show off + i < n by omega]

end Buffer

namespace Draft

/-- Directories in layout order start with the root, when there is one. -/
theorem Coherent.root_index {d : Draft} (hwf : d.Coherent) {r : Nat}
    (hroot : d.indexOf? .root = some r) : r = 0 := by
  obtain ⟨x, hx, hk⟩ := indexOf?_eq_some hroot
  have hr : r < d.dirs.length := (List.getElem?_eq_some_iff.1 hx).1
  by_contra hne
  -- the first directory would rank below the root, which ranks lowest
  have hlt := List.pairwise_iff_getElem.1 hwf.sorted 0 r (by simp; omega) (by simpa using hr)
    (Nat.pos_of_ne_zero hne)
  obtain rfl : d.dirs[r] = x := (List.getElem?_eq_some_iff.1 hx).2
  simp [hk, DirectoryKind.rank] at hlt

end Draft

namespace Plan

/-- The plan of a draft in layout order starts with the root's table. -/
theorem plan_first_table {d d₂ : Draft} {p₀ : Plan} (hwf : d.Coherent)
    (hplan : d.plan = (d₂, .ok p₀)) :
    p₀.root = 0 ∧ (d.dirs[0]?).map (·.kind) = some .root ∧
      ∃ it, p₀.items[0]? = some it ∧ it.part = .table 0 ∧ it.offset = none := by
  obtain ⟨root, hroot, -, -, hof⟩ := Draft.plan_eq_ok hplan
  obtain rfl := hwf.root_index hroot
  obtain ⟨x, hx, hk⟩ := Draft.indexOf?_eq_some hroot
  have hkinds := plan_kinds hwf hplan
  obtain ⟨x₂, rest, hd₂⟩ : ∃ x₂ rest, d₂.dirs = x₂ :: rest := by
    cases hd : d₂.dirs with
    | nil =>
      rw [hd] at hkinds
      cases hdirs : d.dirs with
      | nil => rw [hdirs] at hx; cases hx
      | cons _ _ => rw [hdirs] at hkinds; cases hkinds
    | cons x₂ rest => exact ⟨x₂, rest, rfl⟩
  refine ⟨ofDraft_root hof, by rw [hx]; exact congrArg some hk, ?_⟩
  rw [ofDraft_items hof, hd₂]
  exact ⟨_, rfl, rfl, rfl⟩

/-- A plan whose first item is the root's table has the root at that item's offset. -/
theorem rootOffset_of_first {p : Plan} {it : Item} {v : Nat} (h : p.items[0]? = some it)
    (hpart : it.part = .table p.root) (hoff : it.offset = some v) : p.rootOffset = .ok v := by
  obtain ⟨rest, hitems⟩ : ∃ rest, p.items = it :: rest := by
    cases hi : p.items with
    | nil => rw [hi] at h; cases h
    | cons it' rest =>
      rw [hi, List.getElem?_cons_zero, Option.some.injEq] at h
      exact ⟨rest, by rw [h]⟩
  simp [rootOffset, dirOffset, tableItem?, itemOffset, hitems, List.findIdx?_cons, hpart,
    Item.offset?, hoff]

end Plan

namespace Compact

/-- Bytes that items take back to back, each padded to an even length. -/
def paddedLength (its : List Item) : Nat := (its.map fun it => it.length + it.length % 2).sum

@[simp] theorem paddedLength_nil : paddedLength [] = 0 := rfl

@[simp] theorem paddedLength_cons (it : Item) (its : List Item) :
    paddedLength (it :: its) = it.length + it.length % 2 + paddedLength its := by
  simp [paddedLength]

theorem paddedLength_append (its its' : List Item) :
    paddedLength (its ++ its') = paddedLength its + paddedLength its' := by
  simp [paddedLength]

theorem paddedLength_take_succ {its : List Item} {i : Nat} {it : Item} (h : its[i]? = some it) :
    paddedLength (its.take (i + 1)) = paddedLength (its.take i) + (it.length + it.length % 2) := by
  rw [List.take_add_one, h, paddedLength_append]
  simp

theorem paddedLength_take_le {its : List Item} {i j : Nat} (h : i ≤ j) :
    paddedLength (its.take i) ≤ paddedLength (its.take j) := by
  obtain ⟨k, rfl⟩ := Nat.exists_eq_add_of_le h
  rw [List.take_add, paddedLength_append]
  exact Nat.le_add_right _ _

/-- Items that depend only on their lengths take the same padded bytes. -/
theorem paddedLength_congr {its its' : List Item} (h : its.map (·.length) = its'.map (·.length)) :
    paddedLength its = paddedLength its' := by
  have hm : ∀ l : List Item, l.map (fun it => it.length + it.length % 2) =
      (l.map (·.length)).map fun n => n + n % 2 := fun l => by rw [List.map_map]; rfl
  rw [paddedLength, paddedLength, hm, hm, h]

/-- Packing succeeds with the items in order, each placed at `start` plus the padded lengths of
those before it, and ends after the padding of the last. -/
theorem packFrom_eq_ok : ∀ {start : Nat} {its items : List Item} {stop : Nat},
    packFrom start its = .ok (items, stop) →
      stop = start + paddedLength its ∧ items.map (·.length) = its.map (·.length) ∧
      ∀ (i : Nat) (it : Item), its[i]? = some it →
        items[i]? = some { it with offset := some (start + paddedLength (its.take i)) }
  | start, [], items, stop, h => by
    simp only [packFrom, Except.ok.injEq, Prod.mk.injEq] at h
    obtain ⟨rfl, rfl⟩ := h
    simp
  | start, it :: its, items, stop, h => by
    obtain ⟨rest, hrest, rfl⟩ := packFrom_cons_eq_ok h
    obtain ⟨hstop, hlengths, hrest⟩ := packFrom_eq_ok hrest
    refine ⟨by rw [hstop, paddedLength_cons, Width.paddingToEven]; omega,
      by simp [hlengths], fun i a ha => ?_⟩
    cases i with
    | zero =>
      rw [List.getElem?_cons_zero, Option.some.injEq] at ha
      subst ha
      simp
    | succ i =>
      rw [List.getElem?_cons_succ] at ha
      rw [List.getElem?_cons_succ, hrest i a ha, List.take_succ_cons, paddedLength_cons,
        Width.paddingToEven]
      congr 3
      omega

/-- Of two packed items, the earlier ends, with its padding, before the later starts. -/
theorem paddedLength_take_lt {its : List Item} {k i : Nat} {it : Item} (hk : its[k]? = some it)
    (hki : k < i) : paddedLength (its.take k) + (it.length + it.length % 2) ≤ paddedLength (its.take i) := by
  rw [← paddedLength_take_succ hk]
  exact paddedLength_take_le hki

/-- Blocks of padded length lay out the padded lengths of their items. -/
theorem length_flatMap_padded {its : List Item} {blk : Item → List UInt8}
    (h : ∀ it ∈ its, (blk it).length = it.length + it.length % 2) :
    (its.flatMap blk).length = paddedLength its := by
  rw [List.length_flatMap, paddedLength, List.map_congr_left h]

/-- An item and its padding end where all the items do at the latest. -/
theorem paddedLength_take_add_le {its : List Item} {k : Nat} {it : Item} (hk : its[k]? = some it) :
    paddedLength (its.take k) + (it.length + it.length % 2) ≤ paddedLength its := by
  rw [← paddedLength_take_succ hk]
  calc paddedLength (its.take (k + 1))
      ≤ paddedLength (its.take its.length) := paddedLength_take_le (List.getElem?_eq_some_iff.1 hk).1
    _ = paddedLength its := by rw [List.take_length]

section Packed

/- The items of `p` are those of `its` packed from `start`. -/
variable {start stop : Nat} {its : List Item} {p : Plan}
  (hpack : packFrom start its = .ok (p.items, stop))
include hpack

/-- A packed item spans its length from `start` plus the padded lengths of the items before it. -/
theorem span?_packed {k : Nat} {r : Extent} (h : p.span? k = some r) :
    ∃ it, its[k]? = some it ∧ r = ⟨start + paddedLength (its.take k), it.length⟩ := by
  obtain ⟨-, hlengths, hat⟩ := packFrom_eq_ok hpack
  simp only [Plan.span?, Option.bind_eq_some_iff, Option.map_eq_some_iff] at h
  obtain ⟨it', hit', o', ho', rfl⟩ := h
  have hk : k < its.length := by
    have hlen := congrArg List.length hlengths
    simp only [List.length_map] at hlen
    exact hlen ▸ (List.getElem?_eq_some_iff.1 hit').1
  obtain ⟨it, hit⟩ : ∃ it, its[k]? = some it := ⟨_, List.getElem?_eq_getElem hk⟩
  rw [hat k it hit, Option.some.injEq] at hit'
  subst hit'
  simp only [Option.some.injEq] at ho'
  exact ⟨it, hit, by rw [← ho']⟩

/-- Packed items start at `start` or later. -/
theorem span?_packed_start {k : Nat} {r : Extent} (h : p.span? k = some r) : start ≤ r.offset := by
  obtain ⟨it, -, rfl⟩ := span?_packed hpack h
  exact Nat.le_add_right _ _

/-- Packed items end where the packing does at the latest. -/
theorem span?_packed_stop {k : Nat} {r : Extent} (h : p.span? k = some r) : r.stop ≤ stop := by
  obtain ⟨it, hit, rfl⟩ := span?_packed hpack h
  obtain ⟨rfl, -, -⟩ := packFrom_eq_ok hpack
  have := paddedLength_take_add_le hit
  simp only [Extent.stop]
  omega

/-- Two packed items share no byte. -/
theorem span?_packed_apart {a b : Nat} {r q : Extent} (ha : p.span? a = some r)
    (hb : p.span? b = some q) (hab : a ≠ b) : r.Apart q := by
  obtain ⟨ia, hia, rfl⟩ := span?_packed hpack ha
  obtain ⟨ib, hib, rfl⟩ := span?_packed hpack hb
  unfold Extent.Apart Extent.stop
  dsimp only
  rcases Nat.lt_or_gt_of_ne hab with hlt | hlt
  · exact Or.inl (by have := paddedLength_take_lt hia hlt; omega)
  · exact Or.inr (by have := paddedLength_take_lt hib hlt; omega)

/-- No packed item meets the padding after an item. -/
theorem span?_packed_apart_padding {j k : Nat} {r : Extent} {it : Item} (hj : p.span? j = some r)
    (hk : its[k]? = some it) :
    r.Apart ⟨start + paddedLength (its.take k) + it.length, it.length % 2⟩ := by
  obtain ⟨ij, hij, rfl⟩ := span?_packed hpack hj
  unfold Extent.Apart Extent.stop
  dsimp only
  rcases Nat.lt_trichotomy j k with hlt | rfl | hgt
  · exact Or.inl (by have := paddedLength_take_lt hij hlt; omega)
  · rw [hk, Option.some.injEq] at hij
    subst hij
    exact Or.inl (Nat.le_refl _)
  · exact Or.inr (by have := paddedLength_take_lt hk hgt; omega)

end Packed

/-- Packing places the items of a plan. -/
theorem packed_placed {p₀ : Plan} {items : List Item} {length : Nat}
    (hpack : packFrom headerSize p₀.items = .ok (items, length)) : p₀.Placed { p₀ with items } :=
  ⟨rfl, rfl, rfl, rfl, (packFrom_packed hpack).parts⟩

section Steps

/- The steps of a compact write that succeeds, as `write_eq_ok` gives them. -/
variable {o : ByteOrder} {d d₂ d₃ : Draft} {p₀ : Plan} {items : List Item} {length root : Nat}
  {buf B : ByteArray} (hplan : d.plan = (d₂, .ok p₀))
  (hpack : packFrom headerSize p₀.items = .ok (items, length))
  (hpatch : ({ p₀ with items } : Plan).patch d₂ = (d₃, .ok ()))
  (hheader : writeHeader (zeros length) o root = .ok buf)
  (hwrite : ({ p₀ with items } : Plan).writeItems d₃ (List.range items.length) buf = .ok B)
include hplan hpack hpatch hheader hwrite

omit hplan hpatch in
theorem size_written : B.size = headerSize + paddedLength p₀.items := by
  obtain ⟨rfl, -, -⟩ := packFrom_eq_ok hpack
  rw [Plan.size_writeItems hwrite, size_writeHeader hheader, size_zeros]

/-- Every packed item is written at its offset, and serializes exactly its length. -/
theorem written_item (hwf : d.Coherent) {k : Nat} {it : Item}
    (hit : ({ p₀ with items } : Plan).items[k]? = some it) :
    (Plan.output { p₀ with items } it d₃).length = it.length ∧
      ∃ o', it.offset = some o' ∧ Holds B o' (Plan.output { p₀ with items } it d₃) := by
  have hpack' : packFrom headerSize p₀.items = .ok (({ p₀ with items } : Plan).items, length) :=
    hpack
  have hall := Plan.writeItems_holds (packed_emits hplan hpack hpatch) hwrite List.nodup_range
    (fun a _ b _ hab r q hr hq => span?_packed_apart hpack' hr hq hab)
    (fun k _ r hr => by
      rw [size_writeHeader hheader, size_zeros]
      exact span?_packed_stop hpack' hr)
  obtain ⟨it', o', bs, hit', ho', hbs, hholds⟩ :=
    hall k (List.mem_range.2 (List.getElem?_eq_some_iff.1 hit).1)
  rw [hit, Option.some.injEq] at hit'
  subst hit'
  have hexact := Plan.pieces_exact (p := { p₀ with items }) (packed_sized hplan hpack k it hit)
    (Plan.patch_repointed hwf hplan (packed_placed hpack) hpatch)
  unfold Exact at hexact
  rw [hbs] at hexact
  exact ⟨by rw [Plan.output, hbs]; exact hexact rfl, o', ho', by rw [Plan.output, hbs]; exact hholds⟩

/-- The zero byte after an item of odd length is kept from the zeroed buffer. -/
theorem written_padding {k : Nat} {it : Item} (hk : p₀.items[k]? = some it) :
    Holds B (headerSize + paddedLength (p₀.items.take k) + it.length)
      (List.replicate (it.length % 2) 0) := by
  have hpack' : packFrom headerSize p₀.items = .ok (({ p₀ with items } : Plan).items, length) :=
    hpack
  obtain ⟨rfl, -, -⟩ := packFrom_eq_ok hpack
  have hz : Holds (zeros (headerSize + paddedLength p₀.items))
      (headerSize + paddedLength (p₀.items.take k) + it.length) (List.replicate (it.length % 2) 0) :=
    holds_zeros (by have := paddedLength_take_add_le hk; omega)
  refine Plan.writeItems_keeps (packed_emits hplan hpack hpatch) hwrite
    ((writeHeader_eq_ok hheader).2.2 hz (by omega)) fun j _ r hr => ?_
  rw [List.length_replicate]
  exact span?_packed_apart_padding hpack' hr hk

/-- The header is kept: every item lies after it. -/
theorem written_header : Holds B 0 (o.marker ++ o.encode 2 magic ++ o.encode 4 root) := by
  have hpack' : packFrom headerSize p₀.items = .ok (({ p₀ with items } : Plan).items, length) :=
    hpack
  refine Plan.writeItems_keeps (packed_emits hplan hpack hpatch) hwrite
    (writeHeader_eq_ok hheader).2.1 fun k _ r hr => Or.inr ?_
  have := span?_packed_start hpack' hr
  simp only [Extent.stop, length_header]
  omega

/-- After the header stand the items in order, each followed by its padding. -/
theorem written_body (hwf : d.Coherent) :
    Holds B headerSize
        (items.flatMap fun it => Plan.output { p₀ with items } it d₃ ++ List.replicate (it.length % 2) 0) ∧
      (items.flatMap fun it =>
        Plan.output { p₀ with items } it d₃ ++ List.replicate (it.length % 2) 0).length =
        paddedLength p₀.items := by
  obtain ⟨-, hlengths, hat⟩ := packFrom_eq_ok hpack
  have hlen : items.length = p₀.items.length := by simpa using congrArg List.length hlengths
  have hblk : ∀ it ∈ items, (Plan.output { p₀ with items } it d₃ ++
      List.replicate (it.length % 2) 0).length = it.length + it.length % 2 := by
    intro it hit
    obtain ⟨k, hk⟩ := List.mem_iff_getElem?.1 hit
    rw [List.length_append, (written_item hplan hpack hpatch hheader hwrite hwf hk).1,
      List.length_replicate]
  have hbody_len := (length_flatMap_padded hblk).trans (paddedLength_congr hlengths)
  refine ⟨holds_flatMap_of ?_ fun i hi => ?_, hbody_len⟩
  · rw [hbody_len, size_written hpack hheader hwrite]
  · obtain ⟨it, hit⟩ : ∃ it, p₀.items[i]? = some it := ⟨_, List.getElem?_eq_getElem (hlen ▸ hi)⟩
    have hat_i : headerSize + ((items.take i).flatMap fun it =>
        Plan.output { p₀ with items } it d₃ ++ List.replicate (it.length % 2) 0).length =
        headerSize + paddedLength (p₀.items.take i) := by
      rw [length_flatMap_padded fun a ha => hblk a (List.mem_of_mem_take ha)]
      exact congrArg (headerSize + ·)
        (paddedLength_congr (by rw [List.map_take, hlengths, List.map_take]))
    rw [hat_i, (List.getElem_eq_iff hi).2 (hat i it hit)]
    obtain ⟨hlen', o', ho', hholds⟩ := written_item hplan hpack hpatch hheader hwrite hwf (hat i it hit)
    simp only [Option.some.injEq] at ho'
    subst ho'
    refine holds_append.2 ⟨hholds, ?_⟩
    rw [hlen']
    have hpadding := written_padding hplan hpack hpatch hheader hwrite hit
    exact hpadding

end Steps

section Written

variable {o : ByteOrder} {d : Draft} {B : ByteArray}

/-- Compact output of a draft in layout order, byte for byte. The placed items keep the order
of the plan, each at the end of the header plus the padded lengths of the items before it, and
the first is the root's table. The output is the header naming the root at that offset, then
each item's serialization, exactly its length, followed by a zero byte after an odd length. -/
theorem write_bytes (hwf : d.Coherent) (h : write o d = .ok B) :
    ∃ d₂ p₀ p d₃, d.plan = (d₂, .ok p₀) ∧ p₀.Placed p ∧ p.patch d₂ = (d₃, .ok ()) ∧
      (∀ (i : Nat) (it : Item), p₀.items[i]? = some it →
        p.items[i]? = some { it with offset := some (headerSize + paddedLength (p₀.items.take i)) }) ∧
      (∃ it, p.items[0]? = some it ∧ it.part = .table p.root ∧ it.offset = some headerSize) ∧
      (d.dirs[p.root]?).map (·.kind) = some .root ∧
      (∀ it ∈ p.items, (p.output it d₃).length = it.length) ∧
      B.data.toList = o.marker ++ o.encode 2 magic ++ o.encode 4 headerSize ++
        p.items.flatMap (fun it => p.output it d₃ ++ List.replicate (it.length % 2) 0) ∧
      B.size = headerSize + paddedLength p₀.items := by
  obtain ⟨-, d₂, p₀, items, length, d₃, root, buf, hplan, hpack, hpatch, hroot, hheader,
    hwrite⟩ := write_eq_ok h
  obtain ⟨-, -, hat⟩ := packFrom_eq_ok hpack
  obtain ⟨hroot₀, hkind, it₀, hit₀, hpart₀, -⟩ := Plan.plan_first_table hwf hplan
  have hfirst : ({ p₀ with items } : Plan).items[0]? = some { it₀ with offset := some headerSize } := by
    simpa using hat 0 it₀ hit₀
  obtain rfl : root = headerSize := by
    have hr := Plan.rootOffset_of_first hfirst (by rw [hpart₀]; exact congrArg _ hroot₀.symm) rfl
    rw [hr] at hroot
    exact (Except.ok.inj hroot).symm
  have hsize := size_written hpack hheader hwrite
  obtain ⟨hbody, hbody_len⟩ := written_body hplan hpack hpatch hheader hwrite hwf
  have hwhole := holds_append.2 ⟨written_header hplan hpack hpatch hheader hwrite,
    by rw [length_header]; simpa using hbody⟩
  refine ⟨d₂, p₀, { p₀ with items }, d₃, hplan, packed_placed hpack, hpatch, hat, ⟨_, hfirst, ?_, rfl⟩, ?_, fun it hit => ?_, hwhole.toList_eq ?_, hsize⟩
  · show it₀.part = .table p₀.root
    rw [hpart₀, hroot₀]
  · show (d.dirs[p₀.root]?).map (·.kind) = some .root
    rw [hroot₀, hkind]
  · obtain ⟨k, hk⟩ := List.mem_iff_getElem?.1 hit
    exact (written_item hplan hpack hpatch hheader hwrite hwf hk).1
  · rw [hsize, List.length_append, length_header]
    exact congrArg (headerSize + ·) hbody_len.symm

/-- A root with one out-of-line value of five bytes: the table right after the header, the
value after the table, and one zero byte of padding. -/
theorem write_bytes_oddValue :
    Draft.Coherent ⟨.little, [⟨.root, .little, [Field.undefined ⟨0x9286⟩ ⟨#[1, 2, 3, 4, 5]⟩], none⟩]⟩ ∧
    write .little ⟨.little, [⟨.root, .little, [Field.undefined ⟨0x9286⟩ ⟨#[1, 2, 3, 4, 5]⟩], none⟩]⟩ =
      .ok ⟨#[0x49, 0x49, 0x2A, 0, 8, 0, 0, 0, 1, 0, 0x86, 0x92, 7, 0, 5, 0, 0, 0, 26, 0, 0, 0, 0, 0, 0,
        0, 1, 2, 3, 4, 5, 0]⟩ ∧
    ∃ d₂ p₀ p d₃,
      Draft.plan ⟨.little, [⟨.root, .little, [Field.undefined ⟨0x9286⟩ ⟨#[1, 2, 3, 4, 5]⟩], none⟩]⟩ =
        (d₂, .ok p₀) ∧ p₀.Placed p ∧ p.patch d₂ = (d₃, .ok ()) ∧
      (∀ (i : Nat) (it : Item), p₀.items[i]? = some it →
        p.items[i]? = some { it with offset := some (headerSize + paddedLength (p₀.items.take i)) }) ∧
      (∃ it, p.items[0]? = some it ∧ it.part = .table p.root ∧ it.offset = some headerSize) ∧
      ((⟨.little, [⟨.root, .little, [Field.undefined ⟨0x9286⟩ ⟨#[1, 2, 3, 4, 5]⟩], none⟩]⟩ :
        Draft).dirs[p.root]?).map (·.kind) = some .root ∧
      (∀ it ∈ p.items, (p.output it d₃).length = it.length) ∧
      (ByteArray.data ⟨#[0x49, 0x49, 0x2A, 0, 8, 0, 0, 0, 1, 0, 0x86, 0x92, 7, 0, 5, 0, 0, 0, 26, 0, 0,
        0, 0, 0, 0, 0, 1, 2, 3, 4, 5, 0]⟩).toList =
        ByteOrder.little.marker ++ ByteOrder.little.encode 2 magic ++
          ByteOrder.little.encode 4 headerSize ++
          p.items.flatMap (fun it => p.output it d₃ ++ List.replicate (it.length % 2) 0) ∧
      ByteArray.size ⟨#[0x49, 0x49, 0x2A, 0, 8, 0, 0, 0, 1, 0, 0x86, 0x92, 7, 0, 5, 0, 0, 0, 26, 0, 0,
        0, 0, 0, 0, 0, 1, 2, 3, 4, 5, 0]⟩ = headerSize + paddedLength p₀.items := by
  have hwf : Draft.Coherent
      ⟨.little, [⟨.root, .little, [Field.undefined ⟨0x9286⟩ ⟨#[1, 2, 3, 4, 5]⟩], none⟩]⟩ :=
    ⟨by simp, by simp, by simp, by simp⟩
  have hw : write .little
      ⟨.little, [⟨.root, .little, [Field.undefined ⟨0x9286⟩ ⟨#[1, 2, 3, 4, 5]⟩], none⟩]⟩ =
      .ok ⟨#[0x49, 0x49, 0x2A, 0, 8, 0, 0, 0, 1, 0, 0x86, 0x92, 7, 0, 5, 0, 0, 0, 26, 0, 0, 0, 0, 0,
        0, 0, 1, 2, 3, 4, 5, 0]⟩ := by
    decide +kernel
  exact ⟨hwf, hw, write_bytes hwf hw⟩

end Written

end Compact

end TiffLayout
