import Mathlib.Data.List.Forall2
import TiffLayout.Error
/-! Inversion of computations in `Except`: what a successful bind, traversal or fold is made of,
and the invariant of a fold that may fail. Proofs about writing cite these and never unfold a
`do` block of the library more than once. -/
namespace TiffLayout

variable {ε ε' α β : Type}

@[simp] theorem ok_bind {a : α} {f : α → Except ε β} : (Except.ok a >>= f) = f a := rfl

@[simp] theorem error_bind {e : ε} {f : α → Except ε β} :
    (Except.error e >>= f : Except ε β) = .error e := rfl

theorem bind_eq_ok {x : Except ε α} {f : α → Except ε β} {b : β} :
    x >>= f = .ok b ↔ ∃ a, x = .ok a ∧ f a = .ok b := by
  cases x <;> simp [bind, Except.bind]

theorem bind_eq_error {x : Except ε α} {f : α → Except ε β} {e : ε} :
    x >>= f = .error e ↔ x = .error e ∨ ∃ a, x = .ok a ∧ f a = .error e := by
  cases x <;> simp [bind, Except.bind]

@[simp] theorem mapError_eq_ok {x : Except ε α} {g : ε → ε'} {a : α} :
    x.mapError g = .ok a ↔ x = .ok a := by
  cases x <;> simp [Except.mapError]

@[simp] theorem checked_eq_ok {r : Except ArithError α} {a : α} : checked r = .ok a ↔ r = .ok a :=
  mapError_eq_ok

/-- A checked word operation fails only by arithmetic. -/
theorem checked_eq_error {r : Except ArithError α} {e : LayoutError} (h : checked r = .error e) :
    ∃ a, e = .arith a := by
  cases r with
  | error a => exact ⟨a, by simpa [checked, Except.mapError] using h.symm⟩
  | ok v => simp [checked, Except.mapError] at h

/-- A traversal succeeds exactly when every element does, each giving its own result. -/
theorem mapM_eq_ok {f : α → Except ε β} {l : List α} {l' : List β} :
    l.mapM f = .ok l' ↔ List.Forall₂ (fun a b => f a = .ok b) l l' := by
  induction l generalizing l' with
  | nil => cases l' <;> simp [pure, Except.pure]
  | cons a l ih =>
    rw [List.mapM_cons]
    cases ha : f a with
    | error e => cases l' <;> simp [bind, Except.bind, ha]
    | ok b =>
      cases hl : l.mapM f with
      | error e => cases l' <;> simp [bind, Except.bind, ← ih, hl, ha]
      | ok bs => cases l' <;> simp [bind, Except.bind, pure, Except.pure, ← ih, hl, ha]

/-- A traversal whose every success is given by `g` gives the list mapped by `g`. -/
theorem mapM_eq_ok_map {f : α → Except ε β} {g : α → β} {l : List α} {l' : List β}
    (hf : ∀ a ∈ l, ∀ b, f a = .ok b → b = g a) (h : l.mapM f = .ok l') : l' = l.map g := by
  induction l generalizing l' with
  | nil => simpa [pure, Except.pure] using h.symm
  | cons a l ih =>
    rw [List.mapM_cons] at h
    obtain ⟨b, hb, h⟩ := bind_eq_ok.1 h
    obtain ⟨bs, hbs, h⟩ := bind_eq_ok.1 h
    simp only [pure, Except.pure, Except.ok.injEq] at h
    rw [← h, List.map_cons, hf a List.mem_cons_self b hb,
      ih (fun a' ha' => hf a' (List.mem_cons_of_mem a ha')) hbs]

theorem mapM_congr {f g : α → Except ε β} :
    ∀ {l : List α}, (∀ a ∈ l, f a = g a) → l.mapM f = l.mapM g
  | [], _ => rfl
  | a :: l, h => by
    rw [List.mapM_cons, List.mapM_cons, h a List.mem_cons_self,
      mapM_congr fun b hb => h b (List.mem_cons_of_mem a hb)]

/-- Every result of a successful traversal is the result of some element. -/
theorem exists_of_mem_mapM {f : α → Except ε β} {l : List α} {l' : List β} {b : β}
    (h : l.mapM f = .ok l') (hb : b ∈ l') : ∃ a ∈ l, f a = .ok b := by
  have h₂ := mapM_eq_ok.1 h
  clear h
  induction h₂ with
  | nil => cases hb
  | @cons a b' l l' hab _ ih =>
    rcases List.mem_cons.1 hb with rfl | hb
    · exact ⟨a, List.mem_cons_self, hab⟩
    · obtain ⟨a', ha', hf⟩ := ih hb
      exact ⟨a', List.mem_cons_of_mem a ha', hf⟩

/-- Every element of a successful traversal has a result. -/
theorem ok_of_mem_mapM {f : α → Except ε β} {l : List α} {l' : List β} {a : α}
    (h : l.mapM f = .ok l') (ha : a ∈ l) : ∃ b, f a = .ok b := by
  have h₂ := mapM_eq_ok.1 h
  clear h
  induction h₂ with
  | nil => cases ha
  | @cons a' b' l l' hab _ ih =>
    rcases List.mem_cons.1 ha with rfl | ha
    · exact ⟨b', hab⟩
    · exact ih ha

/-- A traversal fails with the failure of some element. -/
theorem mapM_eq_error {f : α → Except ε β} {l : List α} {e : ε} (h : l.mapM f = .error e) :
    ∃ a ∈ l, f a = .error e := by
  induction l with
  | nil => simp [pure, Except.pure] at h
  | cons a l ih =>
    rw [List.mapM_cons] at h
    cases ha : f a with
    | error e' =>
      simp only [ha, bind, Except.bind, Except.error.injEq] at h
      exact ⟨a, List.mem_cons_self, h ▸ ha⟩
    | ok b =>
      cases hl : l.mapM f with
      | error e' =>
        simp only [ha, hl, bind, Except.bind, Except.error.injEq] at h
        obtain ⟨a', ha', hf⟩ := ih (h ▸ hl)
        exact ⟨a', List.mem_cons_of_mem a ha', hf⟩
      | ok bs => simp [ha, hl, bind, Except.bind, pure, Except.pure] at h

/-- The invariant of a fold in `Except`: `P b l` holds of the state `b` with `l` still to be
folded, every step keeps it, and every failing step fails with an error of `Q`. The fold then
ends in a state of `P _ []`, or fails with an error of `Q`. -/
theorem foldlM_induction {f : β → α → Except ε β} (P : β → List α → Prop) (Q : ε → Prop)
    (step : ∀ b a l, P b (a :: l) →
      (∀ b', f b a = .ok b' → P b' l) ∧ (∀ e, f b a = .error e → Q e)) :
    ∀ {l : List α} {b : β}, P b l →
      (∀ b', l.foldlM f b = .ok b' → P b' []) ∧ (∀ e, l.foldlM f b = .error e → Q e) := by
  intro l
  induction l with
  | nil =>
    intro b hb
    refine ⟨fun b' h => ?_, fun e h => ?_⟩
    · simp only [List.foldlM_nil, pure, Except.pure, Except.ok.injEq] at h
      exact h ▸ hb
    · simp [pure, Except.pure] at h
  | cons a l ih =>
    intro b hb
    obtain ⟨hok, herr⟩ := step b a l hb
    simp only [List.foldlM_cons]
    cases hf : f b a with
    | error e => exact ⟨fun b' h => by simp [bind, Except.bind] at h,
        fun e' h => herr e' (by simpa [bind, Except.bind] using hf.trans h)⟩
    | ok b₁ =>
      simpa [bind, Except.bind] using ih (hok b₁ hf)

end TiffLayout
