import TiffLayout.Extent
import TiffLayout.Segment.Basic
import TiffLayout.Proofs.Except
/-! Byte ranges as sets of bytes: containment, disjointness and the ranges of a segment that lie
after its header. Coalescing ranges of a segment gives runs of the segment again, in increasing
order and with more than the tolerance between two of them. -/
namespace TiffLayout

namespace Extent

/-- The first byte after the range. -/
def stop (e : Extent) : Nat := e.offset + e.length

/-- `a` lies inside `b`. -/
def Within (a b : Extent) : Prop := b.offset ≤ a.offset ∧ a.stop ≤ b.stop

/-- `a` and `b` share no byte. -/
def Apart (a b : Extent) : Prop := a.stop ≤ b.offset ∨ b.stop ≤ a.offset

instance (a b : Extent) : Decidable (a.Apart b) := inferInstanceAs (Decidable (_ ∨ _))

/-- A non-empty range after the header of a segment of `size` bytes. -/
structure Inside (size : Nat) (e : Extent) : Prop where
  header : headerSize ≤ e.offset
  pos : 0 < e.length
  bound : e.stop ≤ size

/-- Runs in increasing order with more than the tolerance between two of them. -/
def Separated (runs : List Extent) : Prop :=
  runs.Pairwise fun a b => a.stop + tolerance < b.offset

theorem Within.refl (a : Extent) : a.Within a := ⟨Nat.le_refl _, Nat.le_refl _⟩

theorem Within.trans {a b c : Extent} (hab : a.Within b) (hbc : b.Within c) : a.Within c :=
  ⟨Nat.le_trans hbc.1 hab.1, Nat.le_trans hab.2 hbc.2⟩

theorem Apart.symm {a b : Extent} (h : a.Apart b) : b.Apart a := Or.symm h

/-- A range inside one that is apart from a third is apart from it too. -/
theorem Apart.of_within {a b c : Extent} (hab : a.Within b) (hbc : b.Apart c) : a.Apart c := by
  unfold Apart at *
  unfold Within stop at hab
  unfold stop at *
  omega

@[simp] theorem end?_eq_ok {e : Extent} {n : Nat} :
    e.end? = .ok n ↔ e.offset + e.length < Width.bits64.bound ∧ n = e.stop := by
  simp [end?, stop]

theorem span_eq_ok {start stop : Nat} {r : Extent} (h : span start stop = .ok r) :
    r = ⟨start, stop - start⟩ := by
  obtain ⟨length, hl, hr⟩ := bind_eq_ok.1 h
  obtain ⟨-, rfl⟩ := Width.narrow_ok_iff.1 hl
  simpa [pure, Except.pure, eq_comm] using hr

/-- Coalescing with no range left closes the current run. -/
theorem coalesceFrom_nil_eq_ok {start stop : Nat} {runs : List Extent}
    (h : coalesceFrom start stop [] = .ok runs) : runs = [(⟨start, stop - start⟩ : Extent)] := by
  obtain ⟨r, hr, h⟩ := bind_eq_ok.1 h
  obtain rfl := span_eq_ok hr
  simp only [pure, Except.pure, Except.ok.injEq] at h
  exact h.symm

/-- One step of coalescing: the end of the next range and the room after the current run are
checked; a gap wider than the tolerance closes the run, which must have a 32-bit length, and
otherwise the range joins it. -/
theorem coalesceFrom_cons_eq_ok {start stop : Nat} {e : Extent} {es runs : List Extent}
    (h : coalesceFrom start stop (e :: es) = .ok runs) :
    e.stop < Width.bits64.bound ∧ stop + tolerance < Width.bits64.bound ∧
      ((stop + tolerance < e.offset ∧ stop - start < Width.bits32.bound ∧
          ∃ rest, coalesceFrom e.offset e.stop es = .ok rest ∧
            runs = (⟨start, stop - start⟩ : Extent) :: rest) ∨
        (¬ stop + tolerance < e.offset ∧ coalesceFrom start (max stop e.stop) es = .ok runs)) := by
  obtain ⟨stop', hstop', h⟩ := bind_eq_ok.1 h
  obtain ⟨limit, hlimit, h⟩ := bind_eq_ok.1 h
  obtain ⟨hend, rfl⟩ := end?_eq_ok.1 hstop'
  obtain ⟨hroom, rfl⟩ := Width.add_ok_iff.1 hlimit
  refine ⟨hend, hroom, ?_⟩
  split at h
  · rename_i hgap
    obtain ⟨run, hrun, h⟩ := bind_eq_ok.1 h
    obtain ⟨rest, hrest, h⟩ := bind_eq_ok.1 h
    obtain ⟨length, hlength, hrun⟩ := bind_eq_ok.1 hrun
    obtain ⟨hlen, rfl⟩ := Width.narrow_ok_iff.1 hlength
    simp only [pure, Except.pure, Except.ok.injEq] at h hrun
    subst h hrun
    exact Or.inl ⟨hgap, hlen, rest, hrest, rfl⟩
  · rename_i hgap
    exact Or.inr ⟨hgap, h⟩

/-- Coalescing from a run that starts at `start` gives runs of the segment, all starting at or
after `start`, separated from each other. The induction follows the sorted ranges. -/
theorem coalesceFrom_separated {size start stop : Nat} {es runs : List Extent}
    (h : coalesceFrom start stop es = .ok runs) (hstart : headerSize ≤ start)
    (hlt : start < stop) (hstop : stop ≤ size) (hes : ∀ e ∈ es, e.Inside size ∧ start ≤ e.offset)
    (hsorted : es.Pairwise fun a b => a.offset ≤ b.offset) :
    (∀ r ∈ runs, r.Inside size ∧ start ≤ r.offset) ∧ Separated runs := by
  induction es generalizing start stop runs with
  | nil =>
    obtain rfl := coalesceFrom_nil_eq_ok h
    refine ⟨?_, List.pairwise_singleton _ _⟩
    simp only [List.mem_singleton, forall_eq]
    exact ⟨⟨hstart, Nat.sub_pos_of_lt hlt, by simp only [Extent.stop]; omega⟩, Nat.le_refl _⟩
  | cons e es ih =>
    obtain ⟨he, hse⟩ := hes e List.mem_cons_self
    have hes' : ∀ e' ∈ es, e'.Inside size ∧ e.offset ≤ e'.offset := fun e' h' =>
      ⟨(hes e' (List.mem_cons_of_mem e h')).1, List.rel_of_pairwise_cons hsorted h'⟩
    have hsorted' := hsorted.of_cons
    rcases (coalesceFrom_cons_eq_ok h).2.2 with ⟨hgap, -, rest, hrest, rfl⟩ | ⟨hgap, h⟩
    · -- a gap wider than the tolerance closes the run from `start` to `stop`
      obtain ⟨hrin, hrsep⟩ := ih hrest he.header (by have := he.pos; simp only [Extent.stop]; omega)
        he.bound hes' hsorted'
      refine ⟨?_, List.pairwise_cons.2 ⟨fun r hr => ?_, hrsep⟩⟩
      · intro r hr
        rcases List.mem_cons.1 hr with rfl | hr
        · exact ⟨⟨hstart, Nat.sub_pos_of_lt hlt, by simp only [Extent.stop]; omega⟩, Nat.le_refl _⟩
        · exact ⟨(hrin r hr).1, by have := (hrin r hr).2; omega⟩
      · have := (hrin r hr).2
        simp only [Extent.stop]
        omega
    · -- the range joins the current run, which may grow
      obtain ⟨hrin, hrsep⟩ := ih h hstart (by omega) (Nat.max_le.2 ⟨hstop, he.bound⟩)
        (fun e' h' => ⟨(hes' e' h').1, Nat.le_trans hse (hes' e' h').2⟩) hsorted'
      exact ⟨hrin, hrsep⟩

theorem sortByOffset_inside {size : Nat} {es : List Extent} (h : ∀ e ∈ es, e.Inside size) :
    ∀ e ∈ sortByOffset es, e.Inside size := fun e he =>
  h e ((sortByOffset_perm es).mem_iff.1 he)

/-- The runs of ranges of a segment are ranges of the segment, in increasing order and separated
by more than the tolerance. -/
theorem coalesce_separated {size : Nat} {es runs : List Extent} (h : coalesce es = .ok runs)
    (hes : ∀ e ∈ es, e.Inside size) : (∀ r ∈ runs, r.Inside size) ∧ Separated runs := by
  unfold coalesce at h
  have hin := sortByOffset_inside hes
  have hsorted := sortByOffset_sorted es
  split at h
  · simp only [pure, Except.pure, Except.ok.injEq] at h
    subst h
    simp [Separated]
  · rename_i e rest hsort
    rw [hsort] at hin hsorted
    obtain ⟨stop, hstop, h⟩ := bind_eq_ok.1 h
    obtain ⟨-, rfl⟩ := end?_eq_ok.1 hstop
    have he := hin e List.mem_cons_self
    obtain ⟨hrin, hsep⟩ := coalesceFrom_separated h he.header
      (by have := he.pos; simp only [Extent.stop]; omega) he.bound
      (fun e' h' => ⟨hin e' (List.mem_cons_of_mem e h'), List.rel_of_pairwise_cons hsorted h'⟩)
      hsorted.of_cons
    exact ⟨fun r hr => (hrin r hr).1, hsep⟩

/-- Coalescing from a run that ends at a 64-bit offset gives runs that all end at 64-bit offsets:
every end it meets is a checked one. -/
theorem coalesceFrom_stop_lt {start stop : Nat} {es runs : List Extent}
    (h : coalesceFrom start stop es = .ok runs) (hle : start ≤ stop)
    (hstop : stop < Width.bits64.bound) : ∀ r ∈ runs, r.stop < Width.bits64.bound := by
  induction es generalizing start stop runs with
  | nil =>
    obtain rfl := coalesceFrom_nil_eq_ok h
    simp only [List.mem_singleton, forall_eq, Extent.stop]
    omega
  | cons e es ih =>
    obtain ⟨hbound, -, ⟨-, -, rest, hrest, rfl⟩ | ⟨-, h⟩⟩ := coalesceFrom_cons_eq_ok h
    · -- the run from `start` to `stop` closes, and `e` starts the next
      intro r hr
      rcases List.mem_cons.1 hr with rfl | hr
      · simp only [Extent.stop]
        omega
      · exact ih hrest (by simp only [Extent.stop]; omega) hbound r hr
    · exact ih h (by omega) (Nat.max_lt.2 ⟨hstop, hbound⟩)

/-- Every run ends at a 64-bit offset. -/
theorem coalesce_stop_lt {es runs : List Extent} (h : coalesce es = .ok runs) :
    ∀ r ∈ runs, r.stop < Width.bits64.bound := by
  unfold coalesce at h
  split at h
  · simp only [pure, Except.pure, Except.ok.injEq] at h
    subst h
    simp
  · obtain ⟨stop, hstop, h⟩ := bind_eq_ok.1 h
    obtain ⟨hbound, rfl⟩ := end?_eq_ok.1 hstop
    exact coalesceFrom_stop_lt h (by simp only [Extent.stop]; omega) hbound

/-- A range longer than the tolerance that shares no byte with the run from `start` to `stop`,
nor with any range still to come, shares none with the runs: no run can be joined across it. -/
theorem coalesceFrom_apart {v : Extent} (hv : tolerance < v.length) {start stop : Nat}
    {es runs : List Extent} (h : coalesceFrom start stop es = .ok runs) (hle : start ≤ stop)
    (hrun : v.stop ≤ start ∨ stop ≤ v.offset) (hes : ∀ e ∈ es, v.Apart e) :
    ∀ r ∈ runs, v.Apart r := by
  unfold tolerance at hv
  induction es generalizing start stop runs with
  | nil =>
    obtain rfl := coalesceFrom_nil_eq_ok h
    intro r hr
    rw [List.mem_singleton.1 hr]
    simp only [Apart, Extent.stop] at *
    omega
  | cons e es ih =>
    have he := hes e List.mem_cons_self
    have hes' : ∀ e' ∈ es, v.Apart e' := fun e' h' => hes e' (List.mem_cons_of_mem e h')
    rcases (coalesceFrom_cons_eq_ok h).2.2 with ⟨hgap, -, rest, hrest, rfl⟩ | ⟨hgap, h⟩ <;>
      unfold tolerance at hgap
    · -- the run from `start` to `stop` closes, and `e` starts the next
      intro r hr
      rcases List.mem_cons.1 hr with rfl | hr
      · simp only [Apart, Extent.stop] at *
        omega
      · exact ih hrest (by simp only [Extent.stop]; omega) he hes' r hr
    · -- `e` joins the run; a range longer than the gap it may bridge lies past both
      unfold Apart at he
      unfold Extent.stop at he hrun
      exact ih h (by omega) (by simp only [Extent.stop]; omega) hes'

/-- A range longer than the tolerance that shares no byte with any of the ranges shares none
with their runs. -/
theorem coalesce_apart {v : Extent} (hv : tolerance < v.length) {es runs : List Extent}
    (h : coalesce es = .ok runs) (hes : ∀ e ∈ es, v.Apart e) : ∀ r ∈ runs, v.Apart r := by
  unfold coalesce at h
  split at h
  · simp only [pure, Except.pure, Except.ok.injEq] at h
    subst h
    simp
  · rename_i e rest hsort
    have hes' : ∀ e' ∈ e :: rest, v.Apart e' := fun e' h' =>
      hes e' ((sortByOffset_perm es).mem_iff.1 (hsort ▸ h'))
    obtain ⟨stop, hstop, h⟩ := bind_eq_ok.1 h
    obtain ⟨-, rfl⟩ := end?_eq_ok.1 hstop
    exact coalesceFrom_apart hv h (by simp only [Extent.stop]; omega) (hes' e List.mem_cons_self)
      fun e' h' => hes' e' (List.mem_cons_of_mem e h')

end Extent

end TiffLayout
