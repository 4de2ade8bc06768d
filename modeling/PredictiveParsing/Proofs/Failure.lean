import Mathlib.Data.List.Forall2

/-! # Computations that can fail

A computation in `Except` that goes through a list stops at the first failure. What holds at its start and is kept
by every step that succeeds holds of its result. -/

namespace PredictiveParsing

variable {ε α β : Type}

theorem bind_eq_ok_iff {x : Except ε α} {f : α → Except ε β} {b : β} :
    x >>= f = .ok b ↔ ∃ a, x = .ok a ∧ f a = .ok b := by
  cases x with
  | error e => simp [bind, Except.bind]
  | ok a => simp [bind, Except.bind]

theorem bind_eq_error_iff {x : Except ε α} {f : α → Except ε β} {e : ε} :
    x >>= f = .error e ↔ x = .error e ∨ ∃ a, x = .ok a ∧ f a = .error e := by
  cases x with
  | error e => simp [bind, Except.bind]
  | ok a => simp [bind, Except.bind]

theorem pure_eq_ok_iff {a b : α} : (pure a : Except ε α) = .ok b ↔ a = b := by
  simp [pure, Except.pure]

theorem map_eq_ok_iff {x : Except ε α} {f : α → β} {b : β} :
    x.map f = .ok b ↔ ∃ a, x = .ok a ∧ f a = b := by
  cases x with
  | error e => simp [Except.map]
  | ok a => simp [Except.map]

theorem map_eq_error_iff {x : Except ε α} {f : α → β} {e : ε} : x.map f = .error e ↔ x = .error e := by
  cases x with
  | error e' => simp [Except.map]
  | ok a => simp [Except.map]

theorem foldlM_induction {f : β → α → Except ε β} {P : β → Prop} {xs : List α} {b b' : β}
    (h : xs.foldlM f b = .ok b') (start : P b)
    (step : ∀ x ∈ xs, ∀ b b', P b → f b x = .ok b' → P b') : P b' := by
  induction xs generalizing b with
  | nil =>
      rw [List.foldlM_nil, pure_eq_ok_iff] at h
      exact h ▸ start
  | cons x rest ih =>
      rw [List.foldlM_cons, bind_eq_ok_iff] at h
      obtain ⟨next, hnext, h⟩ := h
      exact ih h (step x List.mem_cons_self b next start hnext)
        (fun y hy => step y (List.mem_cons_of_mem x hy))

/-- A failure comes at one of the steps, behind steps that have succeeded. -/
theorem exists_step_of_foldlM_error {f : β → α → Except ε β} {xs : List α} {b : β} {e : ε}
    (h : xs.foldlM f b = .error e) :
    ∃ before x after b', xs = before ++ x :: after ∧ before.foldlM f b = .ok b' ∧ f b' x = .error e := by
  induction xs generalizing b with
  | nil => cases h
  | cons x rest ih =>
      rw [List.foldlM_cons] at h
      cases hnext : f b x with
      | error e' =>
          rw [hnext] at h
          cases h
          exact ⟨[], x, rest, b, rfl, rfl, hnext⟩
      | ok next =>
          rw [hnext] at h
          obtain ⟨before, y, after, b', rfl, hbefore, herror⟩ := ih h
          refine ⟨x :: before, y, after, b', rfl, ?_, herror⟩
          rw [List.foldlM_cons, hnext]
          exact hbefore

/-- A failure is the failure of one of the steps. -/
theorem exists_error_of_foldlM {f : β → α → Except ε β} {xs : List α} {b : β} {e : ε}
    (h : xs.foldlM f b = .error e) : ∃ x ∈ xs, ∃ b, f b x = .error e := by
  obtain ⟨before, x, after, b', rfl, _, herror⟩ := exists_step_of_foldlM_error h
  exact ⟨x, List.mem_append_right before List.mem_cons_self, b', herror⟩

/-- The results of a computation for each member of a list are those of the members, in order. -/
theorem mapM_eq_ok_iff {f : α → Except ε β} {xs : List α} {ys : List β} :
    xs.mapM f = .ok ys ↔ List.Forall₂ (fun x y => f x = .ok y) xs ys := by
  induction xs generalizing ys with
  | nil =>
      rw [List.mapM_nil, pure_eq_ok_iff, List.forall₂_nil_left_iff]
      exact eq_comm
  | cons x rest ih =>
      rw [List.mapM_cons, bind_eq_ok_iff, List.forall₂_cons_left_iff]
      constructor
      · rintro ⟨y, hy, hrest⟩
        obtain ⟨later, hlater, h⟩ := bind_eq_ok_iff.mp hrest
        exact ⟨y, later, hy, ih.mp hlater, (pure_eq_ok_iff.mp h).symm⟩
      · rintro ⟨y, later, hy, hlater, rfl⟩
        exact ⟨y, hy, bind_eq_ok_iff.mpr ⟨later, ih.mpr hlater, rfl⟩⟩

theorem exists_mapM_ok {f : α → Except ε β} {xs : List α} (h : ∀ x ∈ xs, ∃ y, f x = .ok y) :
    ∃ ys, xs.mapM f = .ok ys := by
  induction xs with
  | nil => exact ⟨[], by rw [List.mapM_nil, pure_eq_ok_iff]⟩
  | cons x rest ih =>
      obtain ⟨⟨y, hy⟩, hrest⟩ := List.forall_mem_cons.mp h
      obtain ⟨ys, hys⟩ := ih hrest
      exact ⟨y :: ys, by rw [List.mapM_cons, hy, hys]; rfl⟩

/-- A failure for a list is the failure for one of its members. -/
theorem exists_error_of_mapM {f : α → Except ε β} {xs : List α} {e : ε} (h : xs.mapM f = .error e) :
    ∃ x ∈ xs, f x = .error e := by
  induction xs with
  | nil => cases h
  | cons x rest ih =>
      rw [List.mapM_cons, bind_eq_error_iff] at h
      rcases h with hx | ⟨y, _, h⟩
      · exact ⟨x, List.mem_cons_self, hx⟩
      · rcases bind_eq_error_iff.mp h with hrest | ⟨_, _, hdone⟩
        · obtain ⟨z, hz, herror⟩ := ih hrest
          exact ⟨z, List.mem_cons_of_mem x hz, herror⟩
        · cases hdone

theorem mapError_eq_ok_iff {ε' : Type} {x : Except ε α} {f : ε → ε'} {a : α} : x.mapError f = .ok a ↔ x = .ok a := by
  cases x with
  | error e => simp [Except.mapError]
  | ok b => simp [Except.mapError]

theorem mapError_eq_error_iff {ε' : Type} {x : Except ε α} {f : ε → ε'} {e' : ε'} :
    x.mapError f = .error e' ↔ ∃ e, x = .error e ∧ f e = e' := by
  cases x with
  | error e => simp [Except.mapError]
  | ok b => simp [Except.mapError]

end PredictiveParsing
