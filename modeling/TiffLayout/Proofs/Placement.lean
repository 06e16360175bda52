import Mathlib.Data.List.Pairwise
import TiffLayout.Write.Reuse
import TiffLayout.Proofs.Items
/-! Placing items into the gaps of an old segment. Each item goes to an even offset after the
header, inside one gap of the pool or after the tail, and no two items share a byte: the pool
is split, shrunk and refilled with remainders, but its gaps stay apart from each other and from
every item placed so far. -/
namespace TiffLayout

namespace Plan

/-- The bytes an item occupies once placed. -/
def span? (p : Plan) (id : Nat) : Option Extent :=
  p.items[id]?.bind fun it => it.offset.map fun o => ⟨o, it.length⟩

theorem place_eq_ok {p p' : Plan} {id o : Nat} (h : p.place id o = .ok p') :
    ∃ it, p.items[id]? = some it ∧ it.offset = none ∧ o % 2 = 0 ∧
      p' = { p with items := p.items.set id { it with offset := some o } } := by
  unfold place at h
  split at h
  · rename_i it hit
    obtain ⟨it', hplace, h⟩ := bind_eq_ok.1 h
    obtain ⟨hnone, heven, rfl⟩ := Item.place_ok_iff.1 hplace
    simp only [pure, Except.pure, Except.ok.injEq] at h
    exact ⟨it, hit, hnone, heven, h.symm⟩
  · cases h

/-- An unplaced item takes any even offset. -/
theorem place_of_unplaced {p : Plan} {id o : Nat} {it : Item} (hit : p.items[id]? = some it)
    (hnone : it.offset = none) (heven : o % 2 = 0) :
    p.place id o = .ok { p with items := p.items.set id { it with offset := some o } } := by
  have hplace : it.place o = .ok { it with offset := some o } :=
    Item.place_ok_iff.2 ⟨hnone, heven, rfl⟩
  simp [place, hit, hplace, bind, Except.bind, pure, Except.pure]

theorem span?_set_self {p : Plan} {id o : Nat} {it : Item} (hit : p.items[id]? = some it) :
    span? { p with items := p.items.set id { it with offset := some o } } id =
      some ⟨o, it.length⟩ := by
  have hlt : id < p.items.length := (List.getElem?_eq_some_iff.1 hit).1
  simp [span?, hlt]

theorem span?_set_ne {p : Plan} {id j : Nat} {it : Item} (hj : id ≠ j) :
    span? { p with items := p.items.set id it } j = p.span? j := by
  simp [span?, List.getElem?_set_ne hj]

end Plan

namespace Width

theorem alignEven_eq_ok {w : Width} {a b : Nat} (h : w.alignEven a = .ok b) :
    b % 2 = 0 ∧ a ≤ b := by
  unfold alignEven at h
  split at h
  · cases h
    exact ⟨‹_›, Nat.le_refl a⟩
  · obtain ⟨-, rfl⟩ := add_ok_iff.1 h
    omega

end Width

namespace Reuse

/-- Aligning a non-empty gap gives an even start inside it; the usable length reaches the end
of the gap. -/
theorem aligned_eq_ok {g : Extent} {start usable : Nat} (h : aligned g = .ok (start, usable))
    (hpos : 0 < g.length) : start % 2 = 0 ∧ g.offset ≤ start ∧ start + usable = g.stop := by
  unfold aligned at h
  split at h
  · obtain ⟨s, hs, h⟩ := bind_eq_ok.1 h
    obtain ⟨-, rfl⟩ := Width.add_ok_iff.1 (checked_eq_ok.1 hs)
    simp only [pure, Except.pure, Except.ok.injEq, Prod.mk.injEq] at h
    obtain ⟨rfl, rfl⟩ := h
    simp only [Extent.stop]
    omega
  · rename_i heven
    simp only [Except.ok.injEq, Prod.mk.injEq] at h
    obtain ⟨rfl, rfl⟩ := h
    exact ⟨by omega, Nat.le_refl _, rfl⟩

theorem aligned_even {g : Extent} {start usable : Nat} (h : aligned g = .ok (start, usable)) :
    start % 2 = 0 := by
  unfold aligned at h
  split at h
  · obtain ⟨s, hs, h⟩ := bind_eq_ok.1 h
    obtain ⟨-, rfl⟩ := Width.add_ok_iff.1 (checked_eq_ok.1 hs)
    simp only [pure, Except.pure, Except.ok.injEq, Prod.mk.injEq] at h
    omega
  · simp only [Except.ok.injEq, Prod.mk.injEq] at h
    omega

theorem aligned_eq_error {g : Extent} {e : LayoutError} (h : aligned g = .error e) :
    ∃ a, e = .arith a := by
  unfold aligned at h
  split at h
  · rcases bind_eq_error.1 h with h | ⟨s, -, h⟩
    · exact checked_eq_error h
    · cases h
  · cases h

/-- A gap of the pool, at index `i`, that holds `length` bytes once aligned. -/
def Fits (pool : List Extent) (length i : Nat) (g : Extent) : Prop :=
  pool[i]? = some g ∧ ∃ start usable, aligned g = .ok (start, usable) ∧ length ≤ usable

/-- The best fit is a gap of the pool that holds the item. The induction walks the pool from
index `k` on, keeping the candidate found so far. -/
theorem bestFit_fits {pool : List Extent} {length : Nat} :
    ∀ (k : Nat) (best : Option (Nat × Extent)) {i : Nat} {g : Extent},
      bestFit length (pool.drop k) k best = .ok (some (i, g)) →
      (∀ i g, best = some (i, g) → Fits pool length i g) → Fits pool length i g := by
  intro k best i g h hbest
  induction hes : pool.drop k generalizing k best with
  | nil =>
    rw [hes] at h
    exact hbest i g (by simpa [bestFit] using h)
  | cons e es ih =>
    rw [hes] at h
    have he : pool[k]? = some e := by
      rw [← List.head?_drop, hes]
      rfl
    have hes' : pool.drop (k + 1) = es := by
      rw [← List.drop_drop, hes]
      rfl
    unfold bestFit at h
    split at h
    · exact hbest i g (by simpa using h)
    · obtain ⟨⟨start, usable⟩, halign, h⟩ := bind_eq_ok.1 h
      dsimp only at h
      rw [← hes'] at h
      refine ih (k + 1) _ h (fun i' g' hig => ?_) hes'
      split at hig
      · rename_i hfit
        simp only [Option.some.injEq, Prod.mk.injEq] at hig
        obtain ⟨rfl, rfl⟩ := hig
        exact ⟨he, start, usable, halign, hfit⟩
      · exact hbest i' g' hig

theorem bestFit_eq_error {length : Nat} :
    ∀ {es : List Extent} {k : Nat} {best : Option (Nat × Extent)} {e : LayoutError},
      bestFit length es k best = .error e → ∃ a, e = .arith a
  | [], _, _, _, h => by simp [bestFit] at h
  | g :: es, k, best, e, h => by
    unfold bestFit at h
    split at h
    · cases h
    · rcases bind_eq_error.1 h with h | ⟨_, -, h⟩
      · exact aligned_eq_error h
      · exact bestFit_eq_error h

/-- Gaps in decreasing order of offset, with more than the tolerance between two of them. -/
def Descending (es : List Extent) : Prop :=
  es.Pairwise fun a b => b.stop + Extent.tolerance < a.offset

/-- Trimming the tail drops gaps that end where the tail starts, so the tail moves down to the
start of the last gap dropped and every gap left ends before it. -/
theorem trimTail_eq_ok : ∀ {es : List Extent} {tail tail' : Nat} {pool : List Extent},
    trimTail es tail = .ok (pool, tail') → Descending es →
    (∀ e ∈ es, headerSize ≤ e.offset ∧ e.stop ≤ tail) → headerSize ≤ tail →
    (∃ k, pool = es.drop k) ∧ headerSize ≤ tail' ∧ tail' ≤ tail ∧ ∀ e ∈ pool, e.stop ≤ tail'
  | [], tail, tail', pool, h, _, _, htail => by
    simp only [trimTail, Except.ok.injEq, Prod.mk.injEq] at h
    obtain ⟨rfl, rfl⟩ := h
    exact ⟨⟨0, rfl⟩, htail, Nat.le_refl _, by simp⟩
  | e :: es, tail, tail', pool, h, hdesc, hes, htail => by
    obtain ⟨stop, hstop, h⟩ := bind_eq_ok.1 h
    obtain ⟨-, rfl⟩ := Extent.end?_eq_ok.1 (checked_eq_ok.1 hstop)
    split at h
    · rename_i hend
      obtain ⟨tail₁, htail₁, h⟩ := bind_eq_ok.1 h
      obtain ⟨-, rfl⟩ := Width.sub_ok_iff.1 (checked_eq_ok.1 htail₁)
      have he := hes e List.mem_cons_self
      have hrest : ∀ e' ∈ es, headerSize ≤ e'.offset ∧ e'.stop ≤ tail - e.length := by
        intro e' he'
        have hsep := List.rel_of_pairwise_cons hdesc he'
        refine ⟨(hes e' (List.mem_cons_of_mem e he')).1, ?_⟩
        simp only [Extent.stop] at hsep hend ⊢
        omega
      obtain ⟨⟨k, rfl⟩, hheader, hle, hpool⟩ := trimTail_eq_ok h hdesc.of_cons hrest
        (by simp only [Extent.stop] at hend; omega)
      exact ⟨⟨k + 1, rfl⟩, hheader, by omega, hpool⟩
    · simp only [Except.ok.injEq, Prod.mk.injEq] at h
      obtain ⟨rfl, rfl⟩ := h
      exact ⟨⟨0, rfl⟩, htail, Nat.le_refl _, fun e' he' => (hes e' he').2⟩

theorem trimTail_eq_error : ∀ {es : List Extent} {tail : Nat} {e : LayoutError},
    trimTail es tail = .error e → ∃ a, e = .arith a
  | [], _, _, h => by simp [trimTail] at h
  | g :: es, tail, e, h => by
    rcases bind_eq_error.1 h with h | ⟨stop, -, h⟩
    · exact checked_eq_error h
    · split at h
      · rcases bind_eq_error.1 h with h | ⟨_, -, h⟩
        · exact checked_eq_error h
        · exact trimTail_eq_error h
      · cases h

/-- One placement either appends the item at the even offset after the tail, or puts it at the
aligned start of its best-fitting gap, whose remainder returns to the pool. -/
theorem placeOne_cases {s s' : Placing} {id length : Nat} (h : placeOne s (id, length) = .ok s') :
    (bestFit length s.pool 0 none = .ok none ∧ ∃ start, Width.bits64.alignEven s.tail = .ok start ∧
      ∃ plan, s.plan.place id start = .ok plan ∧ s' = ⟨plan, s.pool, start + length⟩) ∨
    (∃ i g start usable, bestFit length s.pool 0 none = .ok (some (i, g)) ∧
      aligned g = .ok (start, usable) ∧ ∃ plan, s.plan.place id start = .ok plan ∧
      s' = if length < usable then
          ⟨plan, resort (s.pool.eraseIdx i ++ [⟨start + length, usable - length⟩]), s.tail⟩
        else ⟨plan, s.pool.eraseIdx i, s.tail⟩) := by
  obtain ⟨best, hbest, h⟩ := bind_eq_ok.1 h
  rcases best with _ | ⟨i, g⟩
  · obtain ⟨start, hstart, h⟩ := bind_eq_ok.1 h
    obtain ⟨plan, hplan, h⟩ := bind_eq_ok.1 h
    obtain ⟨tail, htail, h⟩ := bind_eq_ok.1 h
    obtain ⟨-, rfl⟩ := Width.add_ok_iff.1 (checked_eq_ok.1 htail)
    simp only [pure, Except.pure, Except.ok.injEq] at h
    exact Or.inl ⟨hbest, start, checked_eq_ok.1 hstart, plan, hplan, h.symm⟩
  · obtain ⟨⟨start, usable⟩, halign, h⟩ := bind_eq_ok.1 h
    obtain ⟨plan, hplan, h⟩ := bind_eq_ok.1 h
    refine Or.inr ⟨i, g, start, usable, hbest, halign, plan, hplan, ?_⟩
    split at h
    · rename_i hlt
      obtain ⟨rest, hrest, h⟩ := bind_eq_ok.1 h
      obtain ⟨-, rfl⟩ := Width.add_ok_iff.1 (checked_eq_ok.1 hrest)
      simp only [pure, Except.pure, Except.ok.injEq] at h
      simp [hlt, h]
    · rename_i hge
      simp only [pure, Except.pure, Except.ok.injEq] at h
      simp [hge, h]

/-- A placement fails by arithmetic, or because the item could not take an even offset. -/
theorem placeOne_eq_error {s : Placing} {id length : Nat} {e : LayoutError}
    (h : placeOne s (id, length) = .error e) :
    (∃ a, e = .arith a) ∨ ∃ start, start % 2 = 0 ∧ s.plan.place id start = .error e := by
  rcases bind_eq_error.1 h with h | ⟨best, -, h⟩
  · exact Or.inl (bestFit_eq_error h)
  rcases best with _ | ⟨i, g⟩
  · rcases bind_eq_error.1 h with h | ⟨start, hstart, h⟩
    · exact Or.inl (checked_eq_error h)
    rcases bind_eq_error.1 h with h | ⟨plan, -, h⟩
    · exact Or.inr ⟨start, (Width.alignEven_eq_ok (checked_eq_ok.1 hstart)).1, h⟩
    rcases bind_eq_error.1 h with h | ⟨_, -, h⟩
    · exact Or.inl (checked_eq_error h)
    · cases h
  · rcases bind_eq_error.1 h with h | ⟨⟨start, usable⟩, halign, h⟩
    · exact Or.inl (aligned_eq_error h)
    rcases bind_eq_error.1 h with h | ⟨plan, -, h⟩
    · exact Or.inr ⟨start, aligned_even halign, h⟩
    split at h
    · rcases bind_eq_error.1 h with h | ⟨_, -, h⟩
      · exact Or.inl (checked_eq_error h)
      · cases h
    · cases h

section Invariant

variable (pool₀ : List Extent) (tail₀ : Nat) (p₀ : Plan)

/-- A range that a placed item may take: even, after the header, and inside a gap of the pool
or after the tail. -/
structure Allowed (r : Extent) : Prop where
  even : r.offset % 2 = 0
  header : headerSize ≤ r.offset
  inGap : (∃ g ∈ pool₀, r.Within g) ∨ tail₀ ≤ r.offset

/-- What placement keeps while the items of `todo` wait, those of `done` being placed: the
gaps left lie in gaps of the starting pool and apart from each other, and every placed item
lies in an allowed range apart from the gaps left and from every other placed item. -/
structure Invariant (s : Placing) (done todo : List (Nat × Nat)) : Prop where
  poolWithin : ∀ g ∈ s.pool, ∃ r ∈ pool₀, g.Within r
  poolPos : ∀ g ∈ s.pool, 0 < g.length
  poolApart : s.pool.Pairwise Extent.Apart
  tail : tail₀ ≤ s.tail
  placed : ∀ x ∈ done, ∃ it r, p₀.items[x.1]? = some it ∧
    s.plan.items[x.1]? = some { it with offset := some r.offset } ∧ r.length = it.length ∧
    Allowed pool₀ tail₀ r ∧ r.stop ≤ s.tail ∧ ∀ g ∈ s.pool, r.Apart g
  apart : done.Pairwise fun x y =>
    ∀ r q, s.plan.span? x.1 = some r → s.plan.span? y.1 = some q → r.Apart q
  distinct : ((done ++ todo).map Prod.fst).Nodup
  unchanged : ∀ j, j ∉ done.map Prod.fst → s.plan.items[j]? = p₀.items[j]?

variable {pool₀ tail₀ p₀}

theorem span?_of_items {p : Plan} {j o : Nat} {it : Item}
    (h : p.items[j]? = some { it with offset := some o }) : p.span? j = some ⟨o, it.length⟩ := by
  simp [Plan.span?, h]

/-- The item about to be placed is still where the plan had it. -/
theorem Invariant.pending {s : Placing} {done todo : List (Nat × Nat)} {id len : Nat}
    (inv : Invariant pool₀ tail₀ p₀ s done ((id, len) :: todo)) :
    s.plan.items[id]? = p₀.items[id]? := by
  apply inv.unchanged
  have hd := inv.distinct
  simp only [List.map_append, List.map_cons, List.nodup_append, List.mem_cons] at hd
  intro hid
  exact hd.2.2 id hid id (Or.inl rfl) rfl

/-- Placing the next item at a range `r` keeps the invariant, given a new pool and tail for
which the range and every placed item stay apart from the gaps. -/
theorem Invariant.step {s : Placing} {done todo : List (Nat × Nat)} {id len : Nat} {it : Item}
    {r : Extent} {pool' : List Extent} {tail' : Nat}
    (inv : Invariant pool₀ tail₀ p₀ s done ((id, len) :: todo))
    (hit : p₀.items[id]? = some it) (hr : r.length = it.length) (hallowed : Allowed pool₀ tail₀ r)
    (hpoolWithin : ∀ g ∈ pool', ∃ r₀ ∈ pool₀, g.Within r₀) (hpoolPos : ∀ g ∈ pool', 0 < g.length)
    (hpoolApart : pool'.Pairwise Extent.Apart) (htail : s.tail ≤ tail') (hrtail : r.stop ≤ tail')
    (hrpool : ∀ g ∈ pool', r.Apart g)
    (hold : ∀ q, (∃ x ∈ done, s.plan.span? x.1 = some q) → r.Apart q ∧ ∀ g ∈ pool', q.Apart g) :
    Invariant pool₀ tail₀ p₀
      ⟨{ s.plan with items := s.plan.items.set id { it with offset := some r.offset } }, pool', tail'⟩
      (done ++ [(id, len)]) todo := by
  have hd := inv.distinct
  simp only [List.map_append, List.map_cons, List.nodup_append, List.mem_cons] at hd
  have hne : ∀ x ∈ done, id ≠ x.1 := fun x hx h =>
    hd.2.2 x.1 (List.mem_map_of_mem hx) id (Or.inl rfl) h.symm
  have hspan : ∀ x ∈ done, Plan.span?
      { s.plan with items := s.plan.items.set id { it with offset := some r.offset } } x.1 =
      s.plan.span? x.1 := fun x hx => Plan.span?_set_ne (hne x hx)
  have hpend : s.plan.items[id]? = some it := inv.pending.trans hit
  have hnew : Plan.span?
      { s.plan with items := s.plan.items.set id { it with offset := some r.offset } } id =
      some r := by
    rw [Plan.span?_set_self hpend, ← hr]
  refine ⟨hpoolWithin, hpoolPos, hpoolApart, Nat.le_trans inv.tail htail, ?_, ?_, ?_, ?_⟩
  · intro x hx
    rcases List.mem_append.1 hx with hx | hx
    · obtain ⟨it', q, hit', hq, hlen, hallowed', hstop, -⟩ := inv.placed x hx
      have hqspan : s.plan.span? x.1 = some q := by
        rw [span?_of_items hq, ← hlen]
      refine ⟨it', q, hit', ?_, hlen, hallowed', Nat.le_trans hstop htail,
        (hold q ⟨x, hx, hqspan⟩).2⟩
      rw [List.getElem?_set_ne (hne x hx)]
      exact hq
    · rw [List.mem_singleton.1 hx]
      refine ⟨it, r, hit, ?_, hr, hallowed, hrtail, hrpool⟩
      simp [(List.getElem?_eq_some_iff.1 hpend).1]
  · refine List.pairwise_append.2 ⟨?_, List.pairwise_singleton _ _, ?_⟩
    · refine inv.apart.imp_of_mem fun {x y} hx hy hxy => ?_
      rw [hspan x hx, hspan y hy]
      exact hxy
    · intro x hx y hy q q' hq hq'
      rw [List.mem_singleton.1 hy, hnew, Option.some.injEq] at hq'
      rw [hspan x hx] at hq
      subst hq'
      exact ((hold q ⟨x, hx, hq⟩).1).symm
  · simpa [List.map_append, List.append_assoc] using inv.distinct
  · intro j hj
    simp only [List.map_append, List.map_cons, List.map_nil, List.mem_append,
      List.mem_singleton, not_or] at hj
    rw [List.getElem?_set_ne (Ne.symm hj.2)]
    exact inv.unchanged j hj.1

/-- A placed item ends before the tail and lies apart from every gap left. -/
theorem Invariant.placed_span {s : Placing} {done todo : List (Nat × Nat)} {q : Extent}
    (inv : Invariant pool₀ tail₀ p₀ s done todo) (hq : ∃ x ∈ done, s.plan.span? x.1 = some q) :
    q.stop ≤ s.tail ∧ ∀ g ∈ s.pool, q.Apart g := by
  obtain ⟨x, hx, hspan⟩ := hq
  obtain ⟨it', q', -, hitems, hlen, -, hstop, hpool⟩ := inv.placed x hx
  rw [span?_of_items hitems, Option.some.injEq] at hspan
  have hq' : q' = ⟨q'.offset, it'.length⟩ := by rw [← hlen]
  rw [hq', hspan] at hstop hpool
  exact ⟨hstop, hpool⟩

theorem apart_of_getElem? {l : List Extent} (h : l.Pairwise Extent.Apart) {i j : Nat}
    {a b : Extent} (ha : l[i]? = some a) (hb : l[j]? = some b) (hij : i ≠ j) : a.Apart b := by
  obtain ⟨hi, rfl⟩ := List.getElem?_eq_some_iff.1 ha
  obtain ⟨hj, rfl⟩ := List.getElem?_eq_some_iff.1 hb
  rcases Nat.lt_or_gt_of_ne hij with hlt | hlt
  · exact List.pairwise_iff_getElem.1 h i j hi hj hlt
  · exact (List.pairwise_iff_getElem.1 h j i hj hi hlt).symm

/-- An item appended after the tail keeps the invariant: it starts at or after every gap and
every item placed so far ends. -/
theorem Invariant.step_tail {s : Placing} {done todo : List (Nat × Nat)} {id len start : Nat}
    {it : Item} (inv : Invariant pool₀ tail₀ p₀ s done ((id, len) :: todo))
    (hpool : ∀ r ∈ pool₀, headerSize ≤ r.offset ∧ r.stop ≤ tail₀) (htail₀ : headerSize ≤ tail₀)
    (hit : p₀.items[id]? = some it) (hlen : it.length = len)
    (hstart : Width.bits64.alignEven s.tail = .ok start) :
    Invariant pool₀ tail₀ p₀
      ⟨{ s.plan with items := s.plan.items.set id { it with offset := some start } }, s.pool,
        start + len⟩ (done ++ [(id, len)]) todo := by
  obtain ⟨heven, hle⟩ := Width.alignEven_eq_ok hstart
  have htail := inv.tail
  have hgap : ∀ g ∈ s.pool, g.stop ≤ start := by
    intro g hg
    obtain ⟨r₀, hr₀, hw⟩ := inv.poolWithin g hg
    have := (hpool r₀ hr₀).2
    have := hw.2
    omega
  refine inv.step (r := ⟨start, it.length⟩) hit rfl ⟨heven, by dsimp only; omega,
    Or.inr (by dsimp only; omega)⟩ inv.poolWithin inv.poolPos inv.poolApart (by omega)
    (by simp only [Extent.stop, hlen]; omega) (fun g hg => Or.inr (hgap g hg)) ?_
  intro q hq
  obtain ⟨hqstop, hqpool⟩ := inv.placed_span hq
  exact ⟨Or.inr (by dsimp only; omega), hqpool⟩

/-- An item put at the aligned start of a gap of the pool keeps the invariant: the item and the
remainder of the gap lie inside the gap, which was apart from everything else. -/
theorem Invariant.step_gap {s : Placing} {done todo : List (Nat × Nat)}
    {id len i start usable : Nat} {g : Extent} {it : Item}
    (inv : Invariant pool₀ tail₀ p₀ s done ((id, len) :: todo))
    (hpool : ∀ r ∈ pool₀, headerSize ≤ r.offset ∧ r.stop ≤ tail₀)
    (hit : p₀.items[id]? = some it) (hlen : it.length = len) (hg : s.pool[i]? = some g)
    (halign : aligned g = .ok (start, usable)) (hfit : len ≤ usable) :
    Invariant pool₀ tail₀ p₀
      (if len < usable then
        ⟨{ s.plan with items := s.plan.items.set id { it with offset := some start } },
          resort (s.pool.eraseIdx i ++ [⟨start + len, usable - len⟩]), s.tail⟩
      else ⟨{ s.plan with items := s.plan.items.set id { it with offset := some start } },
          s.pool.eraseIdx i, s.tail⟩) (done ++ [(id, len)]) todo := by
  have hgmem : g ∈ s.pool := List.mem_of_getElem? hg
  obtain ⟨r₀, hr₀, hgr₀⟩ := inv.poolWithin g hgmem
  obtain ⟨heven, hoff, hend⟩ := aligned_eq_ok halign (inv.poolPos g hgmem)
  have hr₀pool := hpool r₀ hr₀
  have htail := inv.tail
  let r : Extent := ⟨start, it.length⟩
  have hrg : r.Within g := ⟨hoff, show start + it.length ≤ g.stop by omega⟩
  have hallowed : Allowed pool₀ tail₀ r :=
    ⟨heven, by have := hgr₀.1; simp only [r]; omega, Or.inl ⟨r₀, hr₀, hrg.trans hgr₀⟩⟩
  have hrtail : r.stop ≤ s.tail := by
    have := hrg.2
    have := hgr₀.2
    omega
  have hothers : ∀ y ∈ s.pool.eraseIdx i, y ∈ s.pool ∧ g.Apart y := by
    intro y hy
    obtain ⟨j, hji, hj⟩ := List.mem_eraseIdx_iff_getElem?.1 hy
    exact ⟨List.mem_of_getElem? hj, apart_of_getElem? inv.poolApart hg hj (Ne.symm hji)⟩
  have herased : (s.pool.eraseIdx i).Pairwise Extent.Apart :=
    inv.poolApart.sublist (List.eraseIdx_sublist _ _)
  have hold : ∀ q, (∃ x ∈ done, s.plan.span? x.1 = some q) → r.Apart q ∧ q.Apart g :=
    fun q hq => ⟨(Extent.Apart.of_within hrg ((inv.placed_span hq).2 g hgmem).symm),
      (inv.placed_span hq).2 g hgmem⟩
  split
  · rename_i hlt
    let rest : Extent := ⟨start + len, usable - len⟩
    have hrest : rest.Within g :=
      ⟨show g.offset ≤ start + len by omega, show start + len + (usable - len) ≤ g.stop by omega⟩
    have hperm : (resort (s.pool.eraseIdx i ++ [rest])).Perm (s.pool.eraseIdx i ++ [rest]) :=
      (List.reverse_perm _).trans (List.mergeSort_perm _ _)
    have hmem : ∀ y ∈ resort (s.pool.eraseIdx i ++ [rest]), y ∈ s.pool.eraseIdx i ∨ y = rest := by
      intro y hy
      simpa using hperm.subset hy
    refine inv.step hit rfl hallowed (fun y hy => ?_) (fun y hy => ?_) ?_ (Nat.le_refl _) hrtail
      (fun y hy => ?_) (fun q hq => ⟨(hold q hq).1, fun y hy => ?_⟩)
    · rcases hmem y hy with hy | rfl
      · exact inv.poolWithin y (hothers y hy).1
      · exact ⟨r₀, hr₀, hrest.trans hgr₀⟩
    · rcases hmem y hy with hy | rfl
      · exact inv.poolPos y (hothers y hy).1
      · simp only [rest]
        omega
    · refine (List.pairwise_append.2 ⟨herased, List.pairwise_singleton _ _, ?_⟩).perm hperm.symm
        (fun h => Extent.Apart.symm h)
      intro y hy z hz
      rw [List.mem_singleton.1 hz]
      exact (Extent.Apart.of_within hrest (hothers y hy).2).symm
    · rcases hmem y hy with hy | rfl
      · exact Extent.Apart.of_within hrg (hothers y hy).2
      · exact Or.inl (show start + it.length ≤ start + len by omega)
    · rcases hmem y hy with hy | rfl
      · exact (inv.placed_span hq).2 y (hothers y hy).1
      · exact (Extent.Apart.of_within hrest (hold q hq).2.symm).symm
  · refine inv.step hit rfl hallowed (fun y hy => inv.poolWithin y (hothers y hy).1)
      (fun y hy => inv.poolPos y (hothers y hy).1) herased (Nat.le_refl _) hrtail
      (fun y hy => Extent.Apart.of_within hrg (hothers y hy).2)
      (fun q hq => ⟨(hold q hq).1, fun y hy => (inv.placed_span hq).2 y (hothers y hy).1⟩)

/-- Placing item after item keeps the invariant, given items that all wait unplaced; a
placement that fails fails by arithmetic. The fold's invariant splits the order into the items
done and those to do. -/
theorem Invariant.run {order : List (Nat × Nat)} {s₀ : Placing}
    (hpool : ∀ r ∈ pool₀, headerSize ≤ r.offset ∧ r.stop ≤ tail₀) (htail₀ : headerSize ≤ tail₀)
    (hsized : ∀ x ∈ order, ∃ it, p₀.items[x.1]? = some it ∧ it.offset = none ∧ it.length = x.2)
    (inv₀ : Invariant pool₀ tail₀ p₀ s₀ [] order) :
    (∀ s, order.foldlM placeOne s₀ = .ok s → Invariant pool₀ tail₀ p₀ s order []) ∧
    (∀ e, order.foldlM placeOne s₀ = .error e → ∃ a, e = .arith a) := by
  have key := foldlM_induction (f := placeOne)
    (fun s l => ∃ done, order = done ++ l ∧ Invariant pool₀ tail₀ p₀ s done l)
    (fun e => ∃ a, e = .arith a) ?_ ⟨[], rfl, inv₀⟩
  · refine ⟨fun s h => ?_, key.2⟩
    obtain ⟨done, horder, inv⟩ := key.1 s h
    rw [List.append_nil] at horder
    exact horder ▸ inv
  rintro s ⟨id, len⟩ l ⟨done, horder, inv⟩
  obtain ⟨it, hit, hnone, hlen⟩ := hsized (id, len) (by simp [horder])
  have hpend : s.plan.items[id]? = some it := inv.pending.trans hit
  have horder' : order = (done ++ [(id, len)]) ++ l := by simp [horder]
  refine ⟨fun s' h => ?_, fun e h => ?_⟩
  · rcases placeOne_cases h with ⟨-, start, hstart, plan, hplan, rfl⟩ |
      ⟨i, g, start, usable, hbest, halign, plan, hplan, rfl⟩
    · obtain ⟨it', hit', -, -, rfl⟩ := Plan.place_eq_ok hplan
      obtain rfl : it' = it := Option.some.inj (hit'.symm.trans hpend)
      exact ⟨_, horder', inv.step_tail hpool htail₀ hit hlen hstart⟩
    · obtain ⟨it', hit', -, -, rfl⟩ := Plan.place_eq_ok hplan
      obtain rfl : it' = it := Option.some.inj (hit'.symm.trans hpend)
      obtain ⟨hg, start', usable', halign', hfit⟩ :=
        bestFit_fits 0 none (by simpa using hbest) (fun _ _ h => by cases h)
      rw [halign] at halign'
      obtain ⟨rfl, rfl⟩ := Prod.mk.inj (Except.ok.inj halign')
      exact ⟨_, horder', inv.step_gap hpool hit hlen hg halign hfit⟩
  · rcases placeOne_eq_error h with ha | ⟨start, heven, herr⟩
    · exact ha
    · rw [Plan.place_of_unplaced hpend hnone heven] at herr
      cases herr

/-- A placed pool's invariant at the start: nothing done, the sorted pool in place. -/
theorem Invariant.init {pool' : List Extent} {order : List (Nat × Nat)}
    (hpos : ∀ g ∈ pool₀, 0 < g.length) (hapart : pool₀.Pairwise Extent.Apart)
    (hperm : pool'.Perm pool₀) (hnodup : (order.map Prod.fst).Nodup) :
    Invariant pool₀ tail₀ p₀ ⟨p₀, pool', tail₀⟩ [] order where
  poolWithin g hg := ⟨g, hperm.subset hg, Extent.Within.refl g⟩
  poolPos g hg := hpos g (hperm.subset hg)
  poolApart := hapart.perm hperm.symm fun h => Extent.Apart.symm h
  tail := Nat.le_refl _
  placed := by simp
  apart := List.Pairwise.nil
  distinct := by simpa using hnodup
  unchanged _ _ := rfl

end Invariant

/-- Where placement puts the items `ids` of `p`, giving `p'`: each at a range allowed by the
pool and tail it started from and ending by `length`, no two sharing a byte, and every other
item as it was. -/
structure Layout (pool : List Extent) (tail length : Nat) (p p' : Plan) (ids : List Nat) :
    Prop where
  placed : ∀ id ∈ ids, ∃ it r, p.items[id]? = some it ∧
    p'.items[id]? = some { it with offset := some r.offset } ∧ r.length = it.length ∧
    Allowed pool tail r ∧ r.stop ≤ length
  header : headerSize ≤ length
  apart : ∀ a ∈ ids, ∀ b ∈ ids, a ≠ b →
    ∀ r q, p'.span? a = some r → p'.span? b = some q → r.Apart q
  unchanged : ∀ j, j ∉ ids → p'.items[j]? = p.items[j]?

/-- The invariant at the end of the fold is the layout of the items placed, up to the new
length, which is at least the tail. -/
theorem Invariant.layout {pool : List Extent} {tail : Nat} {p : Plan} {s : Placing}
    {order : List (Nat × Nat)} {ids : List Nat} (inv : Invariant pool tail p s order [])
    (hperm : (order.map Prod.fst).Perm ids) :
    Layout pool tail (max s.tail headerSize) p s.plan ids := by
  have hmem : ∀ id ∈ ids, ∃ x ∈ order, x.1 = id := fun id hid =>
    List.mem_map.1 (hperm.symm.subset hid)
  refine ⟨fun id hid => ?_, Nat.le_max_right _ _, fun a ha b hb hab => ?_,
    fun j hj => inv.unchanged j ?_⟩
  · obtain ⟨x, hx, rfl⟩ := hmem id hid
    obtain ⟨it, r, hit, hitems, hlen, hallowed, hstop, -⟩ := inv.placed x hx
    exact ⟨it, r, hit, hitems, hlen, hallowed, Nat.le_trans hstop (Nat.le_max_left _ _)⟩
  · obtain ⟨x, hx, rfl⟩ := hmem a ha
    obtain ⟨y, hy, rfl⟩ := hmem b hb
    -- the relation of the invariant is symmetric, so it holds of any two items placed
    have : Std.Symm fun x y : Nat × Nat =>
        ∀ r q, s.plan.span? x.1 = some r → s.plan.span? y.1 = some q → r.Apart q :=
      ⟨fun _ _ h r q hr hq => (h q r hq hr).symm⟩
    exact inv.apart.forall hx hy (fun h => hab (h ▸ rfl))
  · exact fun h => hj (hperm.subset h)

theorem itemLength_eq_ok {p : Plan} {id : Nat} {x : Nat × Nat} (h : itemLength p id = .ok x) :
    ∃ it, p.items[id]? = some it ∧ x = (id, it.length) := by
  unfold itemLength at h
  split at h
  · exact ⟨_, ‹_›, (Except.ok.inj h).symm⟩
  · cases h

/-- The lengths looked up for the items keep their ids, in order. -/
theorem mapM_itemLength {p : Plan} {ids : List Nat} {sized : List (Nat × Nat)}
    (h : ids.mapM (itemLength p) = .ok sized) : sized.map Prod.fst = ids := by
  have h₂ := mapM_eq_ok.1 h
  clear h
  induction h₂ with
  | nil => rfl
  | cons hx _ ih =>
    obtain ⟨it, -, rfl⟩ := itemLength_eq_ok hx
    rw [List.map_cons, ih]

/-- The pool that trimming leaves of separated runs inside a segment: runs apart from each
other that end before the tail, which lies between the header and the end. -/
theorem trimTail_runs {runs pool : List Extent} {size tail : Nat}
    (h : trimTail (Extent.sortByOffset runs).reverse size = .ok (pool, tail))
    (hinside : ∀ r ∈ runs, r.Inside size) (hsep : Extent.Separated runs)
    (hsize : headerSize ≤ size) :
    (∀ g ∈ pool, g ∈ runs) ∧ pool.Pairwise Extent.Apart ∧ headerSize ≤ tail ∧ tail ≤ size ∧
      ∀ g ∈ pool, g.stop ≤ tail := by
  -- separated runs are already sorted, and reversed they descend
  have hsorted : Extent.sortByOffset runs = runs := List.mergeSort_of_pairwise
    (hsep.imp fun h => by simp only [Extent.stop, decide_eq_true_eq] at h ⊢; omega)
  have hdesc : Descending runs.reverse := List.pairwise_reverse.2 hsep
  rw [hsorted] at h
  have hbounds : ∀ e ∈ runs.reverse, headerSize ≤ e.offset ∧ e.stop ≤ size := fun e he =>
    ⟨(hinside e (List.mem_reverse.1 he)).header, (hinside e (List.mem_reverse.1 he)).bound⟩
  obtain ⟨⟨k, rfl⟩, hheader, hle, hstop⟩ := trimTail_eq_ok h hdesc hbounds hsize
  refine ⟨fun g hg => List.mem_reverse.1 (List.mem_of_mem_drop hg), ?_, hheader, hle, hstop⟩
  exact hdesc.drop.imp fun h => Or.inr (by omega)

/-- Placing items that all wait unplaced into the gaps of separated runs inside a segment
either fails by arithmetic, or lays them out in the pool and tail that trimming leaves, in a new
segment that reaches the tail. -/
theorem place_spec {runs : List Extent} {size : Nat} {p : Plan} {ids : List Nat}
    (hinside : ∀ r ∈ runs, r.Inside size) (hsep : Extent.Separated runs)
    (hsize : headerSize ≤ size) (hids : ids.Nodup)
    (hfree : ∀ id ∈ ids, ∃ it, p.items[id]? = some it ∧ it.offset = none) :
    (∀ p' length, place runs size p ids = .ok (p', length) →
      ∃ pool tail, trimTail (Extent.sortByOffset runs).reverse size = .ok (pool, tail) ∧
        tail ≤ length ∧ Layout pool tail length p p' ids) ∧
    (∀ e, place runs size p ids = .error e → ∃ a, e = .arith a) := by
  unfold place
  rcases htrim : trimTail (Extent.sortByOffset runs).reverse size with e | ⟨pool, tail⟩
  · refine ⟨fun _ _ h => ?_, fun e' h => ?_⟩
    · simp only [error_bind, reduceCtorEq] at h
    · simp only [error_bind, Except.error.injEq] at h
      exact h ▸ trimTail_eq_error htrim
  obtain ⟨hsub, hapart, hheader, -, hstop⟩ := trimTail_runs htrim hinside hsep hsize
  rcases hsized : ids.mapM (itemLength p) with e | sized
  · obtain ⟨id, hid, herr⟩ := mapM_eq_error hsized
    obtain ⟨it, hit, -⟩ := hfree id hid
    simp [itemLength, hit] at herr
  simp only [ok_bind]
  have hfst := mapM_itemLength hsized
  let order := (sized.mergeSort fun a b => decide (a.2 ≤ b.2)).reverse
  have horder : order.Perm sized := (List.reverse_perm _).trans (List.mergeSort_perm _ _)
  have hperm : (order.map Prod.fst).Perm ids := hfst ▸ horder.map Prod.fst
  have hwait : ∀ x ∈ order, ∃ it, p.items[x.1]? = some it ∧ it.offset = none ∧ it.length = x.2 := by
    intro x hx
    obtain ⟨id, hid, hx⟩ := exists_of_mem_mapM hsized (horder.subset hx)
    obtain ⟨it, hit, rfl⟩ := itemLength_eq_ok hx
    obtain ⟨it', hit', hnone⟩ := hfree id hid
    obtain rfl : it' = it := Option.some.inj (hit'.symm.trans hit)
    exact ⟨_, hit, hnone, rfl⟩
  have inv₀ : Invariant pool tail p ⟨p, pool.mergeSort (fun a b => decide (b.length ≤ a.length)),
      tail⟩ [] order :=
    Invariant.init (fun g hg => (hinside g (hsub g hg)).pos) hapart (List.mergeSort_perm _ _)
      (hperm.nodup_iff.2 hids)
  have hrun := Invariant.run (fun r hr => ⟨(hinside r (hsub r hr)).header, hstop r hr⟩) hheader
    hwait inv₀
  refine ⟨fun p' length h => ?_, fun e h => ?_⟩
  · obtain ⟨s, hs, h⟩ := bind_eq_ok.1 h
    obtain ⟨rfl, rfl⟩ := Prod.mk.inj (Except.ok.inj h)
    exact ⟨pool, tail, rfl, Nat.le_trans (hrun.1 s hs).tail (Nat.le_max_left _ _),
      (hrun.1 s hs).layout hperm⟩
  · rcases bind_eq_error.1 h with h | ⟨s, -, h⟩
    · exact hrun.2 e h
    · cases h

end Reuse

end TiffLayout
