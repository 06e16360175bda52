import TiffLayout.Proofs.Image
import TiffLayout.Proofs.Filled
import TiffLayout.Draft.OfSegment
/-! Reading back one written directory. Its entries are its fields: those without structural tags
give back the directory's own fields, sorted by tag; its pointer entries link to exactly the
present kinds below it; its thumbnail entries give back its thumbnail. -/
namespace TiffLayout

open Segment Buffer

namespace Field

/-- The count and type of a field give the length of its bytes. -/
def Consistent (f : Field) : Prop := f.count * f.type.size = f.bytes.size

end Field

namespace Draft

/-- Every field's count and type give the length of its bytes. -/
def Consistent (d : Draft) : Prop := ∀ x ∈ d.dirs, ∀ f ∈ x.fields, f.Consistent

end Draft

namespace Directory

/-- Reading entries after the fields of a directory adds, in order, the fields of the entries
without structural tags, when their tags are distinct and new. -/
theorem ofEntries_eq {y : Directory} {fs : List Field} {es : List Entry}
    (h : List.Forall₂ (fun f e => e.tag = f.tag ∧ e.type = f.type ∧ e.count = f.count ∧
      e.value = f.bytes) fs es)
    (hnd : (fs.map (·.tag)).Nodup) (hnew : ∀ g ∈ y.fields, ∀ f ∈ fs, g.tag ≠ f.tag) :
    y.ofEntries es =
      { y with fields := y.fields ++ (fs.filter fun f => !f.tag.isStructural).map Field.forget } := by
  induction h generalizing y with
  | nil => simp [ofEntries]
  | @cons f e fs es hfe _ ih =>
    obtain ⟨htag, htype, hcount, hvalue⟩ := hfe
    rw [List.map_cons, List.nodup_cons] at hnd
    have hrest : ∀ g ∈ y.fields, ∀ f' ∈ fs, g.tag ≠ f'.tag :=
      fun g hg f' hf' => hnew g hg f' (List.mem_cons_of_mem _ hf')
    unfold ofEntries
    by_cases hs : f.tag.isStructural = true
    · rw [if_pos (htag ▸ hs), ih hnd.2 hrest]
      simp [hs]
    · rw [if_neg (by rw [htag]; exact hs)]
      have hadd : y.addField (Field.raw e.tag e.type e.count e.value) =
          .ok { y with fields := y.fields ++ [f.forget] } := by
        refine addField_ok_iff.2 ⟨fun g hg => ?_, ?_⟩
        · rw [htag]
          exact hnew g hg f List.mem_cons_self
        · simp [Field.raw, Field.forget, htag, htype, hcount, hvalue]
      rw [hadd]
      dsimp only
      rw [ih hnd.2]
      · simp [hs]
      · intro g hg f' hf'
        rcases List.mem_append.1 hg with hg | hg
        · exact hrest g hg f' hf'
        · rw [List.mem_singleton.1 hg]
          exact fun heq => hnd.1 (heq ▸ List.mem_map_of_mem hf')

end Directory

namespace Plan

section EntriesOf

variable {p : Plan} {i : Nat} {x : Directory} {entries : List Entry}

theorem EntriesOf.mem_right (h : p.EntriesOf i x entries) {e : Entry} (he : e ∈ entries) :
    ∃ j f, x.fields[j]? = some f ∧ p.ReadsAs i j f e := by
  obtain ⟨j, hj, rfl⟩ := List.getElem_of_mem he
  have hj' : j < x.fields.length := h.length ▸ hj
  exact ⟨j, _, List.getElem?_eq_getElem hj',
    h.reads j _ _ (List.getElem?_eq_getElem hj') (List.getElem?_eq_getElem hj)⟩

theorem EntriesOf.mem_left (h : p.EntriesOf i x entries) {f : Field} (hf : f ∈ x.fields) :
    ∃ j e, e ∈ entries ∧ p.ReadsAs i j f e := by
  obtain ⟨j, hj, rfl⟩ := List.getElem_of_mem hf
  have hj' : j < entries.length := h.length ▸ hj
  exact ⟨j, _, List.getElem_mem hj',
    h.reads j _ _ (List.getElem?_eq_getElem hj) (List.getElem?_eq_getElem hj')⟩

/-- A written single LONG reads back as its word. -/
theorem ReadsAs.word? {j : Nat} {f : Field} {e : Entry} (h : p.ReadsAs i j f e) {o : ByteOrder}
    {v : Nat} (hw : f.IsWord o v) : e.word? o = some v := by
  have hlen : f.bytes.data.toList.length = 4 := by rw [hw.bytes, ByteOrder.length_encode]
  have hsize : f.bytes.size = 4 := by rwa [Array.length_toList] at hlen
  have htake : (o.encode 4 v).take 4 = o.encode 4 v := List.take_of_length_le (by simp)
  have hslot : f.slot = o.encode 4 v := by simp [Field.slot, hw.bytes, htake]
  have hinline := h.inline (by simp [Field.outOfLine, hsize])
  have hne : FieldType.long ≠ FieldType.short := by decide
  unfold Entry.word?
  rw [hinline, h.count, h.type, hw.count, hw.type, hslot]
  have hdecode : o.decode (o.encode 4 v) = v := o.decode_encode_of_lt (by simpa [Width.bound] using hw.lt)
  simp [hne, hdecode]

/-- The entries' fields without structural tags, in entry order. -/
theorem EntriesOf.ofEntries (h : p.EntriesOf i x entries) (hnd : (x.fields.map (·.tag)).Nodup)
    (k : DirectoryKind) (o : ByteOrder) :
    (Directory.empty k o).ofEntries entries =
      { Directory.empty k o with
        fields := (x.fields.filter fun f => !f.tag.isStructural).map Field.forget } := by
  have hrel : List.Forall₂ (fun f e => e.tag = f.tag ∧ e.type = f.type ∧ e.count = f.count ∧
      e.value = f.bytes) x.fields entries := by
    refine List.forall₂_iff_get.2 ⟨h.length.symm, fun j h₁ h₂ => ?_⟩
    have hr := h.reads j _ _ (List.getElem?_eq_getElem h₁) (List.getElem?_eq_getElem h₂)
    exact ⟨hr.tag, hr.type, hr.count, hr.value⟩
  rw [Directory.ofEntries_eq hrel hnd (by simp [Directory.empty])]
  simp [Directory.empty]

end EntriesOf

section Read

variable {p : Plan} {d d' : Draft} {buf : ByteArray} {i : Nat} {x x' : Directory}
  {entries : List Entry}

/-- The thumbnail entries of a written directory give back its thumbnail. -/
theorem EntriesOf.thumbnailOf (h : p.EntriesOf i x' entries) (hF : p.Filled d i x x')
    (hw : p.Written d' buf) (hx' : d'.dirs[i]? = some x')
    (hnonempty : ∀ th, x.thumbnail = some th → 0 < th.size) :
    (thumbnailOf buf p.byteOrder entries).map (·.bytes) = x.thumbnail := by
  cases hthumb : x.thumbnail with
  | none =>
    have hnone : entries.find? (·.tag = Tag.thumbnailOffset) = none := by
      rw [List.find?_eq_none]
      intro e he hte
      obtain ⟨j, f, hf, hr⟩ := h.mem_right he
      obtain ⟨th, hth, -⟩ := hF.thumbnailOffset f (List.mem_of_getElem? hf)
        (hr.tag ▸ of_decide_eq_true hte)
      rw [hthumb] at hth
      cases hth
    simp [Segment.thumbnailOf, hnone]
  | some th =>
    obtain ⟨⟨f₁, hf₁, ht₁⟩, ⟨f₂, hf₂, ht₂⟩⟩ := hF.thumbnailFields th hthumb
    have hfind : ∀ {t : Tag} {f : Field}, f ∈ x'.fields → f.tag = t →
        ∃ e j g, entries.find? (·.tag = t) = some e ∧ x'.fields[j]? = some g ∧ g.tag = t ∧
          p.ReadsAs i j g e := by
      intro t f hf hft
      obtain ⟨_, e₀, he₀, hr₀⟩ := h.mem_left hf
      have hsome : (entries.find? (·.tag = t)).isSome :=
        List.find?_isSome.2 ⟨e₀, he₀, by simp [hr₀.tag, hft]⟩
      obtain ⟨e, he⟩ := Option.isSome_iff_exists.1 hsome
      obtain ⟨j, g, hg, hr⟩ := h.mem_right (List.mem_of_find?_eq_some he)
      have hte : e.tag = t := by simpa using List.find?_some he
      exact ⟨e, j, g, he, hg, hr.tag ▸ hte, hr⟩
    obtain ⟨e₁, j₁, g₁, he₁, hg₁, hgt₁, hr₁⟩ := hfind hf₁ ht₁
    obtain ⟨e₂, j₂, g₂, he₂, hg₂, hgt₂, hr₂⟩ := hfind hf₂ ht₂
    obtain ⟨th₁, hth₁, id, it, v, hit, hpart, hv, hword₁⟩ :=
      hF.thumbnailOffset g₁ (List.mem_of_getElem? hg₁) hgt₁
    obtain ⟨th₂, hth₂, hword₂⟩ := hF.thumbnailLength g₂ (List.mem_of_getElem? hg₂) hgt₂
    rw [hthumb, Option.some.injEq] at hth₁ hth₂
    subst hth₁ hth₂
    obtain ⟨hheader, hholds⟩ := hw.thumbnail hx' (hF.thumbnail.trans hthumb) hit hpart hv
    have hslice : slice? buf v th.size = some th := by simpa using slice?_of_holds hholds
    have hne : th ≠ ByteArray.empty := by
      rintro rfl
      exact absurd (hnonempty _ hthumb) (by decide)
    simp [Segment.thumbnailOf, he₁, he₂, hr₁.word? hword₁, hr₂.word? hword₂, hne, hheader, hslice]

/-- The pointer entries of a written directory link to exactly the present kinds below it by a
pointer field, at the offsets of their tables. -/
theorem EntriesOf.links (h : p.EntriesOf i x' entries) (hF : p.Filled d i x x') {y : Ifd}
    (hy : y.kind = x.kind) (hentries : y.entries = entries) {ifd : DirectoryKind → Ifd}
    (hoff : ∀ c ci v, d.indexOf? c = some ci → p.dirOffset ci = .ok v → (ifd c).offset = v)
    (c : DirectoryKind) (v : Nat) :
    (c, v) ∈ y.links p.byteOrder ↔
      c ∈ d.dirs.map (·.kind) ∧ DirectoryKind.PointerChild c x.kind ∧ v = (ifd c).offset := by
  unfold Ifd.links
  rw [List.mem_filterMap, hentries, hy]
  constructor
  · rintro ⟨e, he, hlink⟩
    split at hlink
    · rename_i c' hc'
      split at hlink
      · obtain ⟨v', hv', heq⟩ := Option.map_eq_some_iff.1 hlink
        obtain ⟨rfl, rfl⟩ := Prod.mk.inj heq
        obtain ⟨j, f, hf, hr⟩ := h.mem_right he
        rw [hr.tag] at hc'
        obtain ⟨hchild, ci, v₀, hci, hdir, hword⟩ := hF.pointer f (List.mem_of_getElem? hf) _ hc'
        rw [hr.word? hword, Option.some.injEq] at hv'
        subst hv'
        obtain ⟨z, hz, hzk⟩ := Draft.indexOf?_eq_some hci
        exact ⟨List.mem_map.2 ⟨z, List.mem_of_getElem? hz, hzk⟩, hchild,
          (hoff _ ci _ hci hdir).symm⟩
      · cases hlink
    · cases hlink
  · rintro ⟨hc, hchild, rfl⟩
    obtain ⟨f, hf, hft⟩ := hF.pointerField c hc hchild
    obtain ⟨_, e, he, hr⟩ := h.mem_left hf
    have hlinked : f.tag.linkedKind? = some c := DirectoryKind.linkedKind?_pointerTag? hft
    obtain ⟨-, ci, v₀, hci, hdir, hword⟩ := hF.pointer f hf c hlinked
    refine ⟨e, he, ?_⟩
    rw [hr.tag, hlinked]
    simp [hchild.1, hr.word? hword, hoff c ci v₀ hci hdir]

/-- A written directory reads back as its normal form. -/
theorem ofIfd_eq (h : p.EntriesOf i x' entries) (hF : p.Filled d i x x') {y : Ifd}
    (hy : y.kind = x.kind) (hentries : y.entries = entries)
    (hthumb : y.thumbnail.map (·.bytes) = x.thumbnail) {o : ByteOrder} (hbo : x.byteOrder = o)
    (hnonempty : ∀ th, x.thumbnail = some th → 0 < th.size) :
    Directory.ofIfd o y = x.normalize := by
  have hfilter : x.thumbnail.filter (0 < ·.size) = x.thumbnail := by
    cases hth : x.thumbnail with
    | none => rfl
    | some th => simp [hnonempty th hth]
  unfold Directory.ofIfd
  rw [hentries, hy, h.ofEntries hF.nodup, hF.normal, hthumb]
  simp [Directory.setThumbnail, Directory.empty, Directory.normalize, hbo, hfilter]

/-- The fields of a filled directory have consistent counts when those of the draft do. -/
theorem Filled.consistent (hF : p.Filled d i x x') (hx : ∀ f ∈ x.fields, f.Consistent) :
    ∀ f ∈ x'.fields, f.Consistent := by
  intro f hf
  by_cases hs : f.tag.isStructural = true
  · obtain ⟨v, hw⟩ : ∃ v, f.IsWord p.byteOrder v := by
      simp only [Tag.isStructural, Bool.or_eq_true, Option.isSome_iff_exists,
        decide_eq_true_eq] at hs
      rcases hs with (⟨c, hc⟩ | h₁) | h₂
      · obtain ⟨-, _, v, -, -, hw⟩ := hF.pointer f hf c hc
        exact ⟨v, hw⟩
      · obtain ⟨-, -, _, _, v, -, -, -, hw⟩ := hF.thumbnailOffset f hf h₁
        exact ⟨v, hw⟩
      · obtain ⟨th, -, hw⟩ := hF.thumbnailLength f hf h₂
        exact ⟨_, hw⟩
    have hlen : f.bytes.data.toList.length = 4 := by rw [hw.bytes, ByteOrder.length_encode]
    have hsize : f.bytes.size = 4 := by rwa [Array.length_toList] at hlen
    unfold Field.Consistent
    rw [hw.count, hw.type, hsize]
    rfl
  · have hmem : f.forget ∈ (x'.fields.filter fun f => !f.tag.isStructural).map Field.forget :=
      List.mem_map_of_mem (List.mem_filter.2 ⟨hf, by simpa using hs⟩)
    rw [hF.normal] at hmem
    obtain ⟨g, hg, hgf⟩ := List.mem_map.1 ((List.mergeSort_perm _ _).mem_iff.1 hmem)
    have hcons : g.forget.Consistent := hx g (List.mem_of_mem_filter hg)
    rw [hgf] at hcons
    exact hcons

end Read

end Plan

end TiffLayout
