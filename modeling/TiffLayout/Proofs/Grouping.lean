import Mathlib.Algebra.Group.Nat.Defs
import TiffLayout.Proofs.Runs
/-! Coalescing as maximal grouping: when it succeeds it gives one run per maximal group of the
sorted ranges, and an uncovered byte of a run lies in a hole of at most the tolerance. -/
namespace TiffLayout

namespace Extent

/-- The largest end among the ranges, `0` for none. -/
def reach : List Extent → Nat
  | [] => 0
  | e :: es => max e.stop (reach es)

/-- The run of a group sorted by offset: from its first offset to its largest end. -/
def cover : List Extent → Extent
  | [] => ⟨0, 0⟩
  | e :: g => ⟨e.offset, reach (e :: g) - e.offset⟩

/-- Every range of the group after the first starts at most the tolerance after the largest end
before it. -/
def Joined (g : List Extent) : Prop :=
  ∀ pre e post, g = pre ++ e :: post → pre ≠ [] → e.offset ≤ reach pre + tolerance

/-- `gs` splits the ranges, in order, into maximal groups: each is joined, and the range after a
group starts more than the tolerance after the group's largest end. -/
inductive Grouped : List Extent → List (List Extent) → Prop
  | nil : Grouped [] []
  | cons {e : Extent} {g rest : List Extent} {gs : List (List Extent)}
      (joined : Joined (e :: g))
      (apart : ∀ e' ∈ rest.head?, reach (e :: g) + tolerance < e'.offset)
      (tail : Grouped rest gs) : Grouped (e :: g ++ rest) ((e :: g) :: gs)

/-- The greedy grouping that coalescing follows, given the group so far. -/
def groupFrom (cur : List Extent) : List Extent → List (List Extent)
  | [] => [cur]
  | e :: es =>
    if reach cur + tolerance < e.offset then cur :: groupFrom [e] es
    else groupFrom (cur ++ [e]) es

@[simp] theorem reach_nil : reach [] = 0 := rfl

@[simp] theorem reach_cons (e : Extent) (es : List Extent) :
    reach (e :: es) = max e.stop (reach es) := rfl

theorem reach_append (l l' : List Extent) : reach (l ++ l') = max (reach l) (reach l') := by
  induction l with
  | nil => simp
  | cons e l ih => simp [ih, Nat.max_assoc]

theorem stop_le_reach {e : Extent} {g : List Extent} (h : e ∈ g) : e.stop ≤ reach g := by
  induction g with
  | nil => cases h
  | cons e' g ih =>
    rcases List.mem_cons.1 h with rfl | h
    · exact Nat.le_max_left _ _
    · exact Nat.le_trans (ih h) (Nat.le_max_right _ _)

theorem reach_le {g : List Extent} {n : Nat} (h : ∀ e ∈ g, e.stop ≤ n) : reach g ≤ n := by
  induction g with
  | nil => exact Nat.zero_le n
  | cons e g ih =>
    exact Nat.max_le.2 ⟨h e List.mem_cons_self, ih fun e' he' => h e' (List.mem_cons_of_mem e he')⟩

/-- The largest end of a group is the end of one of its ranges. -/
theorem exists_stop_eq_reach {g : List Extent} (h : g ≠ []) : ∃ a ∈ g, a.stop = reach g := by
  induction g with
  | nil => exact absurd rfl h
  | cons e g ih =>
    by_cases hle : reach g ≤ e.stop
    · exact ⟨e, List.mem_cons_self, by simp [hle]⟩
    · have hg : g ≠ [] := by
        rintro rfl
        simp at hle
      obtain ⟨a, ha, hstop⟩ := ih hg
      exact ⟨a, List.mem_cons_of_mem e ha, by simp only [reach_cons]; omega⟩

theorem offset_le_stop (e : Extent) : e.offset ≤ e.stop := Nat.le_add_right _ _

@[simp] theorem cover_offset (e : Extent) (g : List Extent) : (cover (e :: g)).offset = e.offset :=
  rfl

@[simp] theorem cover_stop (e : Extent) (g : List Extent) : (cover (e :: g)).stop = reach (e :: g) := by
  have := offset_le_stop e
  simp only [cover, stop, reach_cons] at *
  omega

/-! ### Joined groups -/

theorem joined_singleton (e : Extent) : Joined [e] := by
  intro pre e' post h hpre
  obtain ⟨x, pre', rfl⟩ := List.exists_cons_of_ne_nil hpre
  simp at h

/-- A range that starts at most the tolerance after a joined group's largest end joins it. -/
theorem Joined.snoc {g : List Extent} {e : Extent} (hg : Joined g)
    (he : e.offset ≤ reach g + tolerance) : Joined (g ++ [e]) := by
  intro pre x post h hpre
  rcases List.eq_nil_or_concat post with rfl | ⟨post', y, rfl⟩
  · obtain ⟨rfl, hx⟩ := List.append_inj' h rfl
    obtain rfl := List.singleton_inj.1 hx
    exact he
  · have h' : pre ++ x :: post' ++ [y] = g ++ [e] := by simpa using h.symm
    exact hg pre x post' (List.append_inj' h' rfl).1.symm hpre

/-! ### The grouping is the greedy one, and the only one -/

theorem groupFrom_gap {cur es : List Extent} {e : Extent}
    (hgap : reach cur + tolerance < e.offset) :
    groupFrom cur (e :: es) = cur :: groupFrom [e] es := by
  rw [groupFrom, if_pos hgap]

theorem groupFrom_join {cur es : List Extent} {e : Extent}
    (hjoin : ¬reach cur + tolerance < e.offset) :
    groupFrom cur (e :: es) = groupFrom (cur ++ [e]) es := by
  rw [groupFrom, if_neg hjoin]

/-- The greedy grouping from a joined group splits the ranges into maximal groups. -/
theorem groupFrom_grouped {c : Extent} {cs es : List Extent} (hcur : Joined (c :: cs)) :
    Grouped (c :: cs ++ es) (groupFrom (c :: cs) es) := by
  induction es generalizing c cs with
  | nil => exact .cons hcur (by simp) .nil
  | cons e es ih =>
    by_cases hgap : reach (c :: cs) + tolerance < e.offset
    · -- a gap beyond the tolerance closes the group
      rw [groupFrom_gap hgap]
      exact .cons hcur (by simpa using hgap) (ih (joined_singleton e))
    · -- `e` joins the group
      rw [groupFrom_join hgap]
      have hjoined : Joined (c :: (cs ++ [e])) := Joined.snoc hcur (by omega)
      simpa using ih hjoined

/-- A joined group does not run on past a group after which a gap beyond the tolerance opens. -/
theorem Joined.not_extends {g g' rest : List Extent} {x : Extent} (hj : Joined (g ++ x :: g'))
    (hg : g ≠ []) (hapart : ∀ e ∈ (x :: rest).head?, reach g + tolerance < e.offset) : False := by
  have hjoin := hj g x g' rfl hg
  have hgap := hapart x rfl
  omega

/-- Two maximal first groups of the same ranges are the same group. -/
theorem first_group_eq {g₁ g₂ r₁ r₂ : List Extent} (h : g₁ ++ r₁ = g₂ ++ r₂) (hg₁ : g₁ ≠ [])
    (hg₂ : g₂ ≠ []) (hj₁ : Joined g₁) (hj₂ : Joined g₂)
    (ha₁ : ∀ e ∈ r₁.head?, reach g₁ + tolerance < e.offset)
    (ha₂ : ∀ e ∈ r₂.head?, reach g₂ + tolerance < e.offset) : g₁ = g₂ := by
  rcases List.append_eq_append_iff.1 h with ⟨as, rfl, rfl⟩ | ⟨bs, rfl, rfl⟩
  · cases as with
    | nil => simp
    | cons x as => exact (hj₂.not_extends hg₁ ha₁).elim
  · cases bs with
    | nil => simp
    | cons y bs => exact (hj₁.not_extends hg₂ ha₂).elim

/-- The maximal grouping of a list of ranges is unique. -/
theorem Grouped.unique {l : List Extent} {gs gs' : List (List Extent)} (h : Grouped l gs)
    (h' : Grouped l gs') : gs = gs' := by
  induction h generalizing gs' with
  | nil =>
    generalize hl : ([] : List Extent) = l at h'
    cases h' with
    | nil => rfl
    | cons => simp at hl
  | @cons e g rest gs hjoined hapart _ ih =>
    generalize hl : e :: g ++ rest = l at h'
    cases h' with
    | nil => simp at hl
    | cons hjoined' hapart' htail' =>
      obtain ⟨rfl, rfl⟩ := List.cons_eq_cons.1 (first_group_eq hl (List.cons_ne_nil _ _)
        (List.cons_ne_nil _ _) hjoined hjoined' hapart hapart')
      obtain rfl := List.append_cancel_left hl
      rw [ih htail']

/-! ### What the groups of sorted ranges give -/

theorem offset_le_of_sorted {y x : Extent} {l : List Extent}
    (hs : (y :: l).Pairwise fun a b => a.offset ≤ b.offset) (hx : x ∈ y :: l) :
    y.offset ≤ x.offset := by
  rcases List.mem_cons.1 hx with rfl | hx
  · exact Nat.le_refl _
  · exact List.rel_of_pairwise_cons hs hx

/-- Every group starts with one of the ranges. -/
theorem Grouped.exists_head {l : List Extent} {gs : List (List Extent)} (h : Grouped l gs)
    {g : List Extent} (hg : g ∈ gs) : ∃ x g', g = x :: g' ∧ x ∈ l := by
  induction h with
  | nil => cases hg
  | @cons e g₀ rest gs _ _ _ ih =>
    rcases List.mem_cons.1 hg with rfl | hg
    · exact ⟨e, g₀, rfl, List.mem_cons_self⟩
    · obtain ⟨x, g', rfl, hx⟩ := ih hg
      exact ⟨x, g', rfl, List.mem_append_right _ hx⟩

/-- The runs of the maximal groups of sorted ranges are separated. -/
theorem Grouped.separated {l : List Extent} {gs : List (List Extent)} (h : Grouped l gs)
    (hsorted : l.Pairwise fun a b => a.offset ≤ b.offset) : Separated (gs.map cover) := by
  induction h with
  | nil => exact List.Pairwise.nil
  | @cons e g rest gs _ hapart htail ih =>
    have hrest := (List.pairwise_append.1 hsorted).2.1
    refine List.pairwise_cons.2 ⟨fun r hr => ?_, ih hrest⟩
    obtain ⟨g', hg', rfl⟩ := List.mem_map.1 hr
    obtain ⟨x, g'', rfl, hx⟩ := htail.exists_head hg'
    obtain ⟨y, rest', rfl⟩ := List.exists_cons_of_ne_nil (List.ne_nil_of_mem hx)
    have hyx := offset_le_of_sorted hrest hx
    have hgap := hapart y rfl
    rw [cover_stop, cover_offset]
    omega

/-- Every range lies inside the run of its group. -/
theorem Grouped.exists_within {l : List Extent} {gs : List (List Extent)} (h : Grouped l gs)
    (hsorted : l.Pairwise fun a b => a.offset ≤ b.offset) :
    ∀ x ∈ l, ∃ g ∈ gs, x.Within (cover g) := by
  induction h with
  | nil => exact fun x hx => by cases hx
  | @cons e g rest gs _ _ _ ih =>
    obtain ⟨hfirst, hrest, -⟩ := List.pairwise_append.1 hsorted
    intro x hx
    rcases List.mem_append.1 hx with hx | hx
    · refine ⟨e :: g, List.mem_cons_self, (offset_le_of_sorted hfirst hx : e.offset ≤ x.offset), ?_⟩
      rw [cover_stop]
      exact stop_le_reach hx
    · obtain ⟨g', hg', hw⟩ := ih hrest x hx
      exact ⟨g', List.mem_cons_of_mem _ hg', hw⟩

/-- A range lies inside at most one of separated runs. -/
theorem Separated.eq_of_within {runs : List Extent} (h : Separated runs) {e r r' : Extent}
    (hr : r ∈ runs) (hr' : r' ∈ runs) (hw : e.Within r) (hw' : e.Within r') : r = r' := by
  induction runs with
  | nil => cases hr
  | cons q runs ih =>
    obtain ⟨hq, hsep⟩ := List.pairwise_cons.1 h
    have hnone : ∀ {s}, s ∈ runs → e.Within q → e.Within s → False := fun hs hwq hws => by
      have := hq _ hs
      unfold Within stop at *
      omega
    rcases List.mem_cons.1 hr with rfl | hrs <;> rcases List.mem_cons.1 hr' with rfl | hrs'
    · rfl
    · exact (hnone hrs' hw hw').elim
    · exact (hnone hrs hw' hw).elim
    · exact ih hsep hrs hrs'

theorem lt_offset_of_apart {e : Extent} {x : Nat} (h : e.Apart ⟨x, 1⟩) (hx : x < e.stop) :
    x < e.offset := by
  unfold Apart stop at h
  unfold stop at hx
  dsimp only at h
  omega

/-- Below the largest end of ranges that leave the byte `x` free, some range starts after `x`
while every range before it ends at `x` or earlier. -/
theorem exists_split_at {l : List Extent} {x : Nat} (hx : x < reach l)
    (hfree : ∀ e ∈ l, e.Apart ⟨x, 1⟩) :
    ∃ pre y post, l = pre ++ y :: post ∧ (∀ e ∈ pre, e.stop ≤ x) ∧ x < y.offset := by
  induction l with
  | nil => simp at hx
  | cons e l ih =>
    by_cases he : x < e.stop
    · exact ⟨[], e, l, rfl, by simp, lt_offset_of_apart (hfree e List.mem_cons_self) he⟩
    · have hl : x < reach l := by
        simp only [reach_cons] at hx
        omega
      obtain ⟨pre, y, post, rfl, hpre, hy⟩ :=
        ih hl fun e' he' => hfree e' (List.mem_cons_of_mem e he')
      exact ⟨e :: pre, y, post, rfl, List.forall_mem_cons.2 ⟨by omega, hpre⟩, hy⟩

/-- A byte inside a joined group's span that no range covers lies in a hole from the end of one
of its ranges to the start of another, at most the tolerance long; when the group is followed by
ranges of larger offsets, no range meets the hole. -/
theorem Joined.hole {g rest : List Extent} (hj : Joined g)
    (hsorted : (g ++ rest).Pairwise fun a b => a.offset ≤ b.offset) {x : Nat}
    (hfree : ∀ e ∈ g ++ rest, e.Apart ⟨x, 1⟩) (hlo : ∀ e ∈ g.head?, e.offset ≤ x)
    (hhi : x < reach g) :
    ∃ a ∈ g, ∃ b ∈ g, a.stop ≤ x ∧ x < b.offset ∧ b.offset ≤ a.stop + tolerance ∧
      ∀ e ∈ g ++ rest, e.Apart ⟨a.stop, b.offset - a.stop⟩ := by
  obtain ⟨pre, y, post, hsplit, hpre, hy⟩ :=
    exists_split_at hhi fun e' he' => hfree e' (List.mem_append_left _ he')
  have hne : pre ≠ [] := by
    rintro rfl
    have := hlo y (by simp [hsplit])
    omega
  obtain ⟨a, ha, hastop⟩ := exists_stop_eq_reach hne
  have hreach : reach pre ≤ x := reach_le hpre
  have hjoin := hj pre y post hsplit hne
  subst hsplit
  rw [List.append_assoc, List.cons_append] at hsorted hfree ⊢
  have hafter := (List.pairwise_append.1 hsorted).2.1
  refine ⟨a, List.mem_append_left _ ha, y, List.mem_append_right _ List.mem_cons_self,
    by omega, hy, by omega, fun e' he' => ?_⟩
  unfold Apart stop
  dsimp only
  rcases List.mem_append.1 he' with hbefore | hafter'
  · have := stop_le_reach hbefore
    unfold stop at this hastop
    omega
  · have := offset_le_of_sorted hafter hafter'
    unfold stop at hastop
    omega

/-- A byte of a group's run that no range covers lies in a hole from the end of one range to the
start of another, at most the tolerance long, that no range meets. -/
theorem Grouped.hole {l : List Extent} {gs : List (List Extent)} (h : Grouped l gs)
    (hsorted : l.Pairwise fun a b => a.offset ≤ b.offset) {x : Nat}
    (hfree : ∀ e ∈ l, e.Apart ⟨x, 1⟩) :
    ∀ g ∈ gs, (cover g).offset ≤ x → x < (cover g).stop →
      ∃ a ∈ l, ∃ b ∈ l, a.stop ≤ x ∧ x < b.offset ∧ b.offset ≤ a.stop + tolerance ∧
        ∀ e ∈ l, e.Apart ⟨a.stop, b.offset - a.stop⟩ := by
  induction h with
  | nil => exact fun g hg => by cases hg
  | @cons e g₀ rest gs hjoined hapart htail ih =>
    obtain ⟨-, hrest, -⟩ := List.pairwise_append.1 hsorted
    intro g hg hlo hhi
    rcases List.mem_cons.1 hg with rfl | hg
    · -- the hole lies inside the first group
      rw [cover_offset] at hlo
      rw [cover_stop] at hhi
      obtain ⟨a, ha, b, hb, hole⟩ := Joined.hole hjoined hsorted hfree (by simpa using hlo) hhi
      exact ⟨a, List.mem_append_left _ ha, b, List.mem_append_left _ hb, hole⟩
    · -- the hole lies in a later group, beyond every range of the first one
      obtain ⟨a, ha, b, hb, h₁, h₂, h₃, happ⟩ :=
        ih hrest (fun e' he' => hfree e' (List.mem_append_right _ he')) g hg hlo hhi
      refine ⟨a, List.mem_append_right _ ha, b, List.mem_append_right _ hb, h₁, h₂, h₃,
        fun e' he' => ?_⟩
      rcases List.mem_append.1 he' with hfirst | hlater
      · obtain ⟨y, rest', rfl⟩ := List.exists_cons_of_ne_nil (List.ne_nil_of_mem ha)
        have hya := offset_le_of_sorted hrest ha
        have hgap := hapart y rfl
        have hend := stop_le_reach hfirst
        have := offset_le_stop a
        exact Or.inl (by dsimp only; omega)
      · exact happ e' hlater

/-! ### Coalescing follows the greedy grouping -/

theorem span_eq_ok_iff {start top : Nat} {r : Extent} :
    span start top = .ok r ↔ top - start < Width.bits32.bound ∧ r = ⟨start, top - start⟩ := by
  unfold span
  rw [bind_eq_ok]
  simp only [Width.narrow_ok_iff, pure, Except.pure, Except.ok.injEq]
  constructor
  · rintro ⟨_, ⟨hlt, rfl⟩, rfl⟩
    exact ⟨hlt, rfl⟩
  · rintro ⟨hlt, rfl⟩
    exact ⟨_, ⟨hlt, rfl⟩, rfl⟩

theorem forall_mem_dropLast_cons {p : Nat → Prop} {x : Nat} {l : List Nat} :
    (∀ s ∈ (x :: l).dropLast, p s) ↔ (l ≠ [] → p x) ∧ ∀ s ∈ l.dropLast, p s := by
  cases l with
  | nil => simp
  | cons y l => simp [List.dropLast_cons_cons]

/-- Coalescing sorted ranges after a group that ends at `top` succeeds exactly when every end it
meets is a 64-bit offset, `top` and every end met but the last leave room for the tolerance, and
every group of the greedy grouping spans a 32-bit length; the runs are those of the groups. The
induction follows the ranges, with the group so far growing or closing at each. -/
theorem coalesceFrom_eq_ok_iff {c : Extent} {cs es runs : List Extent} {top : Nat}
    (htop : reach (c :: cs) = top) :
    coalesceFrom c.offset top es = .ok runs ↔
      (∀ e ∈ es, e.stop < Width.bits64.bound) ∧
      (∀ s ∈ (top :: es.map stop).dropLast, s + tolerance < Width.bits64.bound) ∧
      (∀ g ∈ groupFrom (c :: cs) es, (cover g).length < Width.bits32.bound) ∧
      runs = (groupFrom (c :: cs) es).map cover := by
  induction es generalizing c cs runs top with
  | nil =>
    have hcover : cover (c :: cs) = ⟨c.offset, top - c.offset⟩ := by rw [cover, htop]
    simp only [coalesceFrom, bind_eq_ok, span_eq_ok_iff, groupFrom]
    simp [pure, Except.pure, eq_comm, hcover]
  | cons e es ih =>
    have hcover : cover (c :: cs) = ⟨c.offset, top - c.offset⟩ := by rw [cover, htop]
    have hsingle : reach [e] = e.stop := by simp
    have hgrown : reach (c :: (cs ++ [e])) = max top e.stop := by
      rw [← List.cons_append, reach_append, htop, hsingle]
    rw [List.map_cons, forall_mem_dropLast_cons, forall_mem_dropLast_cons]
    constructor
    · intro h
      obtain ⟨hend, hroom, ⟨hgap, hlen, rest, hrest, rfl⟩ | ⟨hgap, h⟩⟩ := coalesceFrom_cons_eq_ok h
      · -- a gap beyond the tolerance closes the group
        obtain ⟨hends, hrooms, hfits, rfl⟩ := (ih hsingle).1 hrest
        rw [forall_mem_dropLast_cons] at hrooms
        rw [groupFrom_gap (by rw [htop]; exact hgap), List.map_cons, hcover]
        exact ⟨List.forall_mem_cons.2 ⟨hend, hends⟩, ⟨fun _ => hroom, hrooms⟩,
          List.forall_mem_cons.2 ⟨by rw [hcover]; exact hlen, hfits⟩, rfl⟩
      · -- the range joins the group, whose end may grow
        obtain ⟨hends, hrooms, hfits, rfl⟩ := (ih hgrown).1 h
        rw [forall_mem_dropLast_cons] at hrooms
        rw [groupFrom_join (by rw [htop]; exact hgap), List.cons_append]
        exact ⟨List.forall_mem_cons.2 ⟨hend, hends⟩,
          ⟨fun _ => hroom, fun hne => by have := hrooms.1 hne; omega, hrooms.2⟩, hfits, rfl⟩
    · rintro ⟨hends, ⟨hroom, hrooms⟩, hfits, rfl⟩
      have hend := hends e List.mem_cons_self
      have hends' : ∀ e' ∈ es, e'.stop < Width.bits64.bound := fun e' he' =>
        hends e' (List.mem_cons_of_mem e he')
      have hroom' := hroom (List.cons_ne_nil _ _)
      simp only [coalesceFrom, (end?_eq_ok.2 ⟨hend, rfl⟩ : e.end? = .ok e.stop),
        (Width.add_ok_iff.2 ⟨hroom', rfl⟩ : Width.bits64.add top tolerance = .ok (top + tolerance)),
        ok_bind]
      by_cases hgap : top + tolerance < e.offset
      · rw [if_pos hgap]
        rw [groupFrom_gap (by rw [htop]; exact hgap)] at hfits ⊢
        obtain ⟨hfit, hfits⟩ := List.forall_mem_cons.1 hfits
        rw [hcover] at hfit
        have hrest := (ih hsingle).2
          ⟨hends', by rw [forall_mem_dropLast_cons]; exact hrooms, hfits, rfl⟩
        rw [span_eq_ok_iff.2 ⟨hfit, rfl⟩, ok_bind, hrest, ok_bind, List.map_cons, hcover]
        rfl
      · rw [if_neg hgap]
        rw [groupFrom_join (by rw [htop]; exact hgap), List.cons_append] at hfits ⊢
        exact (ih hgrown).2 ⟨hends', by
          rw [forall_mem_dropLast_cons]
          exact ⟨fun hne => by have := hrooms.1 hne; omega, hrooms.2⟩, hfits, rfl⟩

/-- Coalescing succeeds exactly when every end is a 64-bit offset, every end but the last in
offset order leaves room for the tolerance, and every maximal group spans a 32-bit length; the
runs are those of the maximal groups. -/
theorem coalesce_eq_ok_iff {es runs : List Extent} :
    coalesce es = .ok runs ↔
      (∀ e ∈ es, e.stop < Width.bits64.bound) ∧
      (∀ e ∈ (sortByOffset es).dropLast, e.stop + tolerance < Width.bits64.bound) ∧
      ∃ gs, Grouped (sortByOffset es) gs ∧ (∀ g ∈ gs, (cover g).length < Width.bits32.bound) ∧
        runs = gs.map cover := by
  have hends : (∀ e ∈ es, e.stop < Width.bits64.bound) ↔
      ∀ e ∈ sortByOffset es, e.stop < Width.bits64.bound := by
    simp only [(sortByOffset_perm es).mem_iff]
  rw [hends]
  unfold coalesce
  split
  · rename_i hsort
    rw [hsort]
    constructor
    · intro h
      simp only [pure, Except.pure, Except.ok.injEq] at h
      subst h
      exact ⟨by simp, by simp, [], .nil, by simp, rfl⟩
    · rintro ⟨-, -, gs, hgs, -, rfl⟩
      rw [Grouped.unique hgs .nil]
      rfl
  · rename_i e rest hsort
    rw [hsort]
    have hsingle : reach [e] = e.stop := by simp
    have hrooms : (∀ s ∈ (e.stop :: rest.map stop).dropLast, s + tolerance < Width.bits64.bound) ↔
        ∀ x ∈ (e :: rest).dropLast, x.stop + tolerance < Width.bits64.bound := by
      rw [← List.map_cons, ← List.map_dropLast, List.forall_mem_map]
    have hgrouped : Grouped (e :: rest) (groupFrom [e] rest) := groupFrom_grouped (joined_singleton e)
    constructor
    · intro h
      obtain ⟨top, htop, h⟩ := bind_eq_ok.1 h
      obtain ⟨hend, rfl⟩ := end?_eq_ok.1 htop
      obtain ⟨hends, hroom, hfits, rfl⟩ := (coalesceFrom_eq_ok_iff hsingle).1 h
      exact ⟨List.forall_mem_cons.2 ⟨hend, hends⟩, hrooms.1 hroom, _, hgrouped, hfits, rfl⟩
    · rintro ⟨hends, hroom, gs, hgs, hfits, rfl⟩
      obtain rfl := Grouped.unique hgs hgrouped
      rw [(end?_eq_ok.2 ⟨hends e List.mem_cons_self, rfl⟩ : e.end? = .ok e.stop), ok_bind]
      exact (coalesceFrom_eq_ok_iff hsingle).2
        ⟨fun e' he' => hends e' (List.mem_cons_of_mem e he'), hrooms.2 hroom, hfits, rfl⟩

/-! ### Runs of coalesced ranges -/

/-- Coalescing succeeds exactly when every end is a 64-bit offset, every end but the last in
offset order leaves room for the tolerance, and every maximal group of the ranges sorted by
offset spans a 32-bit length. It then gives one run per maximal group, from its first offset to
its largest end. The runs are separated, every range lies in exactly one of them, and a byte of a
run that no range covers lies in a hole, at most the tolerance long and met by no range, from the
end of one range to the start of another. -/
theorem coalesce_maximal_groups {es runs : List Extent} :
    (coalesce es = .ok runs ↔
      (∀ e ∈ es, e.stop < Width.bits64.bound) ∧
      (∀ e ∈ (sortByOffset es).dropLast, e.stop + tolerance < Width.bits64.bound) ∧
      ∃ gs, Grouped (sortByOffset es) gs ∧ (∀ g ∈ gs, (cover g).length < Width.bits32.bound) ∧
        runs = gs.map cover) ∧
    (coalesce es = .ok runs →
      Separated runs ∧ (∀ e ∈ es, ∃! r, r ∈ runs ∧ e.Within r) ∧
      ∀ r ∈ runs, ∀ x, r.offset ≤ x → x < r.stop → (∀ e ∈ es, e.Apart ⟨x, 1⟩) →
        ∃ a ∈ es, ∃ b ∈ es, a.stop ≤ x ∧ x < b.offset ∧ b.offset ≤ a.stop + tolerance ∧
          ∀ e ∈ es, e.Apart ⟨a.stop, b.offset - a.stop⟩) := by
  refine ⟨coalesce_eq_ok_iff, fun h => ?_⟩
  obtain ⟨-, -, gs, hgs, -, rfl⟩ := coalesce_eq_ok_iff.1 h
  have hsorted := sortByOffset_sorted es
  have hmem : ∀ e, e ∈ sortByOffset es ↔ e ∈ es := fun e => (sortByOffset_perm es).mem_iff
  have hsep := hgs.separated hsorted
  refine ⟨hsep, fun e he => ?_, fun r hr x hlo hhi hfree => ?_⟩
  · obtain ⟨g, hg, hw⟩ := hgs.exists_within hsorted e ((hmem e).2 he)
    exact ⟨cover g, ⟨List.mem_map_of_mem hg, hw⟩,
      fun r ⟨hr, hw'⟩ => hsep.eq_of_within hr (List.mem_map_of_mem hg) hw' hw⟩
  · obtain ⟨g, hg, rfl⟩ := List.mem_map.1 hr
    obtain ⟨a, ha, b, hb, hax, hxb, hba, happ⟩ :=
      hgs.hole hsorted (fun e he => hfree e ((hmem e).1 he)) g hg hlo hhi
    exact ⟨a, (hmem a).1 ha, b, (hmem b).1 hb, hax, hxb, hba, fun e he => happ e ((hmem e).2 he)⟩

/-- Two ranges that end at 64-bit offsets, and would make one run of two bytes, do not coalesce:
the tolerance added to the first end overflows. Three empty ranges coalesce into a run of four
bytes, none of which a range covers. -/
theorem coalesce_overflow_and_wide_hole :
    (∀ e ∈ [(⟨2 ^ 64 - 3, 0⟩ : Extent), ⟨2 ^ 64 - 2, 1⟩], e.stop < Width.bits64.bound) ∧
    coalesce [⟨2 ^ 64 - 3, 0⟩, ⟨2 ^ 64 - 2, 1⟩] = .error (.add (2 ^ 64 - 3) tolerance) ∧
    coalesce [⟨0, 0⟩, ⟨3, 0⟩, ⟨4, 0⟩] = .ok [⟨0, 4⟩] ∧
    ∀ x < 4, ∀ e ∈ [(⟨0, 0⟩ : Extent), ⟨3, 0⟩, ⟨4, 0⟩], e.Apart ⟨x, 1⟩ := by
  have htop : sortByOffset [(⟨2 ^ 64 - 3, 0⟩ : Extent), ⟨2 ^ 64 - 2, 1⟩] =
      [⟨2 ^ 64 - 3, 0⟩, ⟨2 ^ 64 - 2, 1⟩] := List.mergeSort_of_pairwise (by decide)
  have hempty : sortByOffset [(⟨0, 0⟩ : Extent), ⟨3, 0⟩, ⟨4, 0⟩] = [⟨0, 0⟩, ⟨3, 0⟩, ⟨4, 0⟩] :=
    List.mergeSort_of_pairwise (by decide)
  refine ⟨by decide, ?_, ?_, ?_⟩
  · unfold coalesce
    rw [htop]
    rfl
  · unfold coalesce
    rw [hempty]
    rfl
  · intro x hx e he
    simp only [List.mem_cons, List.not_mem_nil, or_false] at he
    rcases he with rfl | rfl | rfl <;> simp only [Apart, stop] <;> omega

end Extent

end TiffLayout
