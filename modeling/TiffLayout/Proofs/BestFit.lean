import TiffLayout.Proofs.Placement
/-! The best-fit rule of placement: items longest first, each at the even start of a shortest gap
that holds it, or at the tail when none does (`place_bestFit`). -/
namespace TiffLayout

namespace Reuse

/-- The even start of a gap. -/
def evenStart (g : Extent) : Nat := g.offset + g.offset % 2

/-- The length a gap offers from its even start. -/
def usable (g : Extent) : Nat := if g.offset % 2 = 1 then g.length - 1 else g.length

theorem usable_le (g : Extent) : usable g ≤ g.length := by
  unfold usable
  split <;> omega

/-- Gaps longest first. -/
def LongestFirst (pool : List Extent) : Prop := pool.Pairwise fun a b => b.length ≤ a.length

/-- One placement by the best-fit rule: item `id` of `len` bytes takes state `s` to the state
given last. -/
inductive BestFitStep (s : Placing) (id len : Nat) : Placing → Prop
  /-- No gap holds the item once aligned: it goes to the even offset at the tail. -/
  | tail {plan : Plan} (hnone : ∀ g ∈ s.pool, usable g < len)
      (hplan : s.plan.place id (s.tail + s.tail % 2) = .ok plan) :
      BestFitStep s id len ⟨plan, s.pool, s.tail + s.tail % 2 + len⟩
  /-- The item goes to the even start of a shortest gap that holds it, and the rest of the gap
  after the item returns to the pool. -/
  | gap {i : Nat} {g : Extent} {plan : Plan} {pool : List Extent} (hg : s.pool[i]? = some g)
      (hfit : len ≤ usable g) (hmin : ∀ g' ∈ s.pool, len ≤ usable g' → g.length ≤ g'.length)
      (hplan : s.plan.place id (evenStart g) = .ok plan)
      (hpool : pool.Perm (s.pool.eraseIdx i ++
        if len < usable g then [⟨evenStart g + len, usable g - len⟩] else [])) :
      BestFitStep s id len ⟨plan, pool, s.tail⟩

/-- Items placed one after another by the best-fit rule, the pool longest first before each. -/
inductive BestFitRun : Placing → List (Nat × Nat) → Placing → Prop
  | nil (s : Placing) : BestFitRun s [] s
  | cons {s s₁ s' : Placing} {id len : Nat} {rest : List (Nat × Nat)}
      (hsorted : LongestFirst s.pool) (hstep : BestFitStep s id len s₁)
      (hrest : BestFitRun s₁ rest s') : BestFitRun s ((id, len) :: rest) s'

/-- Aligning a gap gives its even start and its usable length. -/
theorem aligned_eq_ok_usable {g : Extent} {start u : Nat} (h : aligned g = .ok (start, u)) :
    start = evenStart g ∧ u = usable g := by
  unfold aligned at h
  unfold evenStart usable
  split at h
  · rename_i hodd
    obtain ⟨s, hs, h⟩ := bind_eq_ok.1 h
    obtain ⟨-, rfl⟩ := Width.add_ok_iff.1 (checked_eq_ok.1 hs)
    simp only [pure, Except.pure, Except.ok.injEq, Prod.mk.injEq] at h
    obtain ⟨rfl, rfl⟩ := h
    simp [hodd]
  · rename_i heven
    simp only [Except.ok.injEq, Prod.mk.injEq] at h
    obtain ⟨rfl, rfl⟩ := h
    simp [show g.offset % 2 = 0 by omega]

/-- On a pool that is longest first, the scan from index `k` with candidate `best` either keeps
the candidate, no gap holding the item, or finds a shortest gap that holds it. The induction
walks the pool. -/
theorem bestFit_spec {len : Nat} :
    ∀ {es : List Extent} {k : Nat} {best r : Option (Nat × Extent)}, LongestFirst es →
      bestFit len es k best = .ok r →
      (r = best ∧ ∀ g ∈ es, usable g < len) ∨
      ∃ j g, r = some (k + j, g) ∧ es[j]? = some g ∧ len ≤ usable g ∧
        ∀ g' ∈ es, len ≤ usable g' → g.length ≤ g'.length
  | [], k, best, r, _, h => by
    simp only [bestFit, Except.ok.injEq] at h
    exact Or.inl ⟨h.symm, by simp⟩
  | e :: es, k, best, r, hsorted, h => by
    have hrest : ∀ g ∈ es, g.length ≤ e.length := fun g hg => List.rel_of_pairwise_cons hsorted hg
    unfold bestFit at h
    split at h
    · -- the first gap is shorter than the item, and so is every later one
      rename_i hshort
      refine Or.inl ⟨(Except.ok.inj h).symm, fun g hg => ?_⟩
      rcases List.mem_cons.1 hg with rfl | hg
      · exact Nat.lt_of_le_of_lt (usable_le g) hshort
      · exact Nat.lt_of_le_of_lt (usable_le g) (Nat.lt_of_le_of_lt (hrest g hg) hshort)
    · obtain ⟨⟨start, u⟩, halign, h⟩ := bind_eq_ok.1 h
      obtain ⟨-, rfl⟩ := aligned_eq_ok_usable halign
      rcases bestFit_spec hsorted.of_cons h with ⟨rfl, hnone⟩ | ⟨j, g, rfl, hg, hfit, hmin⟩
      · by_cases hfit : len ≤ usable e
        · -- the first gap holds the item and no later one does
          refine Or.inr ⟨0, e, by simp [hfit], rfl, hfit, fun g' hg' hfit' => ?_⟩
          rcases List.mem_cons.1 hg' with rfl | hg'
          · exact Nat.le_refl _
          · exact absurd hfit' (Nat.not_le_of_lt (hnone g' hg'))
        · refine Or.inl ⟨by simp [hfit], fun g hg => ?_⟩
          rcases List.mem_cons.1 hg with rfl | hg
          · exact Nat.lt_of_not_le hfit
          · exact hnone g hg
      · -- a later gap is found; the first one, if it holds the item, is at least as long
        refine Or.inr ⟨j + 1, g, by rw [Nat.add_assoc, Nat.add_comm 1 j], hg, hfit,
          fun g' hg' hfit' => ?_⟩
        rcases List.mem_cons.1 hg' with rfl | hg'
        · exact hrest g (List.mem_of_getElem? hg)
        · exact hmin g' hg' hfit'

/-- Gaps sorted by a stable sort that puts the longest last, then reversed, are longest first. -/
theorem resort_longestFirst (pool : List Extent) : LongestFirst (resort pool) := by
  have hasc : (pool.mergeSort fun a b => decide (a.length ≤ b.length)).Pairwise
      (fun a b => decide (a.length ≤ b.length) = true) :=
    List.pairwise_mergeSort (fun a b c hab hbc => by simp only [decide_eq_true_eq] at *; omega)
      (fun a b => by simp only [Bool.or_eq_true, decide_eq_true_eq]; omega) pool
  exact List.pairwise_reverse.2 (hasc.imp fun hab => by simpa using hab)

theorem resort_perm (pool : List Extent) : (resort pool).Perm pool :=
  (List.reverse_perm _).trans (List.mergeSort_perm _ _)

/-- Placing one item follows the best-fit rule and leaves the pool longest first. -/
theorem placeOne_bestFit {s s' : Placing} {id len : Nat} (hsorted : LongestFirst s.pool)
    (h : placeOne s (id, len) = .ok s') : BestFitStep s id len s' ∧ LongestFirst s'.pool := by
  rcases placeOne_cases h with ⟨hbest, start, hstart, plan, hplan, rfl⟩ |
    ⟨i, g, start, usable', hbest, halign, plan, hplan, rfl⟩
  · -- the scan found no gap: none holds the item, which goes to the even offset at the tail
    rcases bestFit_spec hsorted hbest with ⟨-, hnone⟩ | ⟨j, g, hr, -⟩
    · have hstart' : start = s.tail + s.tail % 2 := by
        unfold Width.alignEven at hstart
        split at hstart
        · rename_i heven
          rw [heven, Nat.add_zero]
          exact (Except.ok.inj hstart).symm
        · obtain ⟨-, rfl⟩ := Width.add_ok_iff.1 hstart
          omega
      subst hstart'
      exact ⟨.tail hnone hplan, hsorted⟩
    · cases hr
  · obtain ⟨rfl, rfl⟩ := aligned_eq_ok_usable halign
    rcases bestFit_spec hsorted hbest with ⟨hr, -⟩ | ⟨j, g', hr, hg, hfit, hmin⟩
    · cases hr
    · obtain ⟨rfl, rfl⟩ : i = j ∧ g = g' := by
        simp only [Nat.zero_add, Option.some.injEq, Prod.mk.injEq] at hr
        exact hr
      -- what is left of the pool is longest first, re-sorted when the rest of the gap returns
      split
      · rename_i hlt
        refine ⟨.gap hg hfit hmin hplan ?_, resort_longestFirst _⟩
        rw [if_pos hlt]
        exact resort_perm _
      · rename_i hge
        refine ⟨.gap hg hfit hmin hplan ?_, hsorted.sublist (List.eraseIdx_sublist _ _)⟩
        rw [if_neg hge, List.append_nil]

/-- Placing items one after another from a pool that is longest first is a best-fit run. -/
theorem foldlM_placeOne_run : ∀ {order : List (Nat × Nat)} {s₀ s : Placing},
    LongestFirst s₀.pool → order.foldlM placeOne s₀ = .ok s → BestFitRun s₀ order s
  | [], s₀, s, _, h => by
    simp only [List.foldlM_nil, pure, Except.pure, Except.ok.injEq] at h
    exact h ▸ .nil s₀
  | (id, len) :: rest, s₀, s, hsorted, h => by
    rw [List.foldlM_cons] at h
    obtain ⟨s₁, h₁, h⟩ := bind_eq_ok.1 h
    obtain ⟨hstep, hsorted₁⟩ := placeOne_bestFit hsorted h₁
    exact .cons hsorted hstep (foldlM_placeOne_run hsorted₁ h)

/-- Placement that succeeds takes the items longest first, each with its length, and places them
by the best-fit rule into the pool that trimming leaves, sorted longest first; the plan and the
length of the new segment are where the run ends. -/
theorem place_bestFit {runs : List Extent} {size length : Nat} {p p' : Plan} {ids : List Nat}
    (h : place runs size p ids = .ok (p', length)) :
    ∃ pool tail order pool₀ s, trimTail (Extent.sortByOffset runs).reverse size = .ok (pool, tail) ∧
      (order.map Prod.fst).Perm ids ∧
      (∀ x ∈ order, ∃ it, p.items[x.1]? = some it ∧ it.length = x.2) ∧
      order.Pairwise (fun a b => b.2 ≤ a.2) ∧
      pool₀.Perm pool ∧ BestFitRun ⟨p, pool₀, tail⟩ order s ∧
      p' = s.plan ∧ length = max s.tail headerSize := by
  unfold place at h
  obtain ⟨⟨pool, tail⟩, htrim, h⟩ := bind_eq_ok.1 h
  obtain ⟨sized, hsized, h⟩ := bind_eq_ok.1 h
  obtain ⟨s, hs, h⟩ := bind_eq_ok.1 h
  simp only [pure, Except.pure, Except.ok.injEq, Prod.mk.injEq] at h
  obtain ⟨rfl, rfl⟩ := h
  let order := (sized.mergeSort fun a b => decide (a.2 ≤ b.2)).reverse
  have horder : order.Perm sized := (List.reverse_perm _).trans (List.mergeSort_perm _ _)
  have hdesc : order.Pairwise (fun a b => b.2 ≤ a.2) := by
    have h : (sized.mergeSort fun a b => decide (a.2 ≤ b.2)).Pairwise
        (fun a b => decide (a.2 ≤ b.2) = true) :=
      List.pairwise_mergeSort (fun a b c hab hbc => by simp only [decide_eq_true_eq] at *; omega)
        (fun a b => by simp only [Bool.or_eq_true, decide_eq_true_eq]; omega) sized
    exact List.pairwise_reverse.2 (h.imp fun hab => by simpa using hab)
  have hpool : LongestFirst (pool.mergeSort fun a b => decide (b.length ≤ a.length)) := by
    have h : (pool.mergeSort fun a b => decide (b.length ≤ a.length)).Pairwise
        (fun a b => decide (b.length ≤ a.length) = true) :=
      List.pairwise_mergeSort (fun a b c hab hbc => by simp only [decide_eq_true_eq] at *; omega)
        (fun a b => by simp only [Bool.or_eq_true, decide_eq_true_eq]; omega) pool
    exact h.imp fun hab => by simpa using hab
  refine ⟨pool, tail, order, _, s, htrim, ?_, fun x hx => ?_, hdesc, List.mergeSort_perm _ _,
    foldlM_placeOne_run hpool hs, rfl, rfl⟩
  · rw [← mapM_itemLength hsized]
    exact horder.map Prod.fst
  · obtain ⟨id, -, hx⟩ := exists_of_mem_mapM hsized (horder.subset hx)
    obtain ⟨it, hit, rfl⟩ := itemLength_eq_ok hx
    exact ⟨it, hit, rfl⟩

/-- Three gaps and four items. The ten-byte table does not fit the nine usable bytes of the gap
at the odd offset 9 and goes to the gap at 20; the six-byte value fills the gap at 40; the
four-byte value takes the smallest gap left that holds it, at the even start 10 of the odd gap;
the twenty-byte value goes to the tail at 60. -/
theorem place_bestFit_threeGaps :
    place [⟨9, 10⟩, ⟨20, 12⟩, ⟨40, 6⟩] 60 ⟨.little, [⟨.table 0, 10, none⟩, ⟨.value 0 0, 6, none⟩,
        ⟨.value 0 1, 4, none⟩, ⟨.value 0 2, 20, none⟩], [], [], 0⟩ [0, 1, 2, 3] =
      .ok (⟨.little, [⟨.table 0, 10, some 20⟩, ⟨.value 0 0, 6, some 40⟩, ⟨.value 0 1, 4, some 10⟩,
        ⟨.value 0 2, 20, some 60⟩], [], [], 0⟩, 80) ∧
    ∃ pool tail order pool₀ s,
      trimTail (Extent.sortByOffset [⟨9, 10⟩, ⟨20, 12⟩, ⟨40, 6⟩]).reverse 60 = .ok (pool, tail) ∧
      (order.map Prod.fst).Perm [0, 1, 2, 3] ∧
      (∀ x ∈ order, ∃ it, (⟨.little, [⟨.table 0, 10, none⟩, ⟨.value 0 0, 6, none⟩,
        ⟨.value 0 1, 4, none⟩, ⟨.value 0 2, 20, none⟩], [], [], 0⟩ : Plan).items[x.1]? = some it ∧
        it.length = x.2) ∧
      order.Pairwise (fun a b => b.2 ≤ a.2) ∧
      pool₀.Perm pool ∧
      BestFitRun ⟨⟨.little, [⟨.table 0, 10, none⟩, ⟨.value 0 0, 6, none⟩, ⟨.value 0 1, 4, none⟩,
        ⟨.value 0 2, 20, none⟩], [], [], 0⟩, pool₀, tail⟩ order s ∧
      (⟨.little, [⟨.table 0, 10, some 20⟩, ⟨.value 0 0, 6, some 40⟩, ⟨.value 0 1, 4, some 10⟩,
        ⟨.value 0 2, 20, some 60⟩], [], [], 0⟩ : Plan) = s.plan ∧ 80 = max s.tail headerSize := by
  have h : place [⟨9, 10⟩, ⟨20, 12⟩, ⟨40, 6⟩] 60 ⟨.little, [⟨.table 0, 10, none⟩,
      ⟨.value 0 0, 6, none⟩, ⟨.value 0 1, 4, none⟩, ⟨.value 0 2, 20, none⟩], [], [], 0⟩ [0, 1, 2, 3] =
      .ok (⟨.little, [⟨.table 0, 10, some 20⟩, ⟨.value 0 0, 6, some 40⟩, ⟨.value 0 1, 4, some 10⟩,
        ⟨.value 0 2, 20, some 60⟩], [], [], 0⟩, 80) := by
    simp [place, trimTail, Extent.sortByOffset, List.mergeSort, itemLength, placeOne, bestFit,
      aligned, resort, Plan.place, Item.place, Extent.end?, checked, Width.add, Width.alignEven,
      Width.bound, Except.mapError, bind, Except.bind, pure, Except.pure, headerSize]
  exact ⟨h, place_bestFit h⟩

end Reuse

end TiffLayout
