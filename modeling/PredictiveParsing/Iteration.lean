/-! # Iteration until nothing changes

A body that reports whether it changed its state is swept over a list, and repeated until it reports no change. The
repetition comes in two forms: one that is total by a rank that each change decreases, and one that gives up after a
given number of rounds and finds what the first finds whenever it finds anything. A function without a report is
applied until it returns its argument. -/

namespace PredictiveParsing

/-- Whether something was changed. -/
inductive Change where
  | changed
  | unchanged
deriving DecidableEq, Inhabited

namespace Change

def ofBool : Bool → Change
  | true => changed
  | false => unchanged

/-- Two changes together: changed if either is. -/
def join : Change → Change → Change
  | changed, _ => changed
  | unchanged, c => c

@[simp] theorem ofBool_eq_changed {b : Bool} : ofBool b = changed ↔ b = true := by
  cases b <;> simp [ofBool]

@[simp] theorem join_eq_changed {c d : Change} : c.join d = changed ↔ c = changed ∨ d = changed := by
  cases c <;> cases d <;> simp [join]

@[simp] theorem join_eq_unchanged {c d : Change} : c.join d = unchanged ↔ c = unchanged ∧ d = unchanged := by
  cases c <;> cases d <;> simp [join]

end Change

variable {σ α : Type}

theorem length_filter_le {p q : α → Bool} {xs : List α} (imp : ∀ y ∈ xs, q y = true → p y = true) :
    (xs.filter q).length ≤ (xs.filter p).length := by
  simp only [← List.countP_eq_length_filter]
  exact List.countP_mono_left imp

/-- A count goes down when it loses a member and gains none: the usual reason why a rank decreases. -/
theorem length_filter_lt {p q : α → Bool} {xs : List α} {x : α} (imp : ∀ y ∈ xs, q y = true → p y = true)
    (mem : x ∈ xs) (yes : p x = true) (no : q x = false) : (xs.filter q).length < (xs.filter p).length := by
  induction xs with
  | nil => cases mem
  | cons y rest ih =>
      have hle := length_filter_le fun z hz => imp z (List.mem_cons_of_mem y hz)
      have hhead := imp y List.mem_cons_self
      rcases List.mem_cons.mp mem with rfl | hmem
      · simp only [List.filter_cons, yes, no, Bool.false_eq_true, if_false, if_true, List.length_cons]
        omega
      · have hlt := ih (fun z hz => imp z (List.mem_cons_of_mem y hz)) hmem
        cases hq : q y with
        | true =>
            simp only [List.filter_cons, hq, hhead hq, if_true, List.length_cons]
            omega
        | false =>
            cases hp : p y with
            | true =>
                simp only [List.filter_cons, hq, hp, Bool.false_eq_true, if_false, if_true, List.length_cons]
                omega
            | false => simpa only [List.filter_cons, hq, hp, Bool.false_eq_true, if_false] using hlt

/-- One pass of a body over a list, with the join of its reports. -/
def sweep (body : σ → α → σ × Change) : σ → List α → σ × Change
  | s, [] => (s, .unchanged)
  | s, x :: rest =>
    let (s, first) := body s x
    let (s, others) := sweep body s rest
    (s, first.join others)

/-- What holds of the start and is kept at every place of the list holds at the end. -/
theorem sweep_induction {body : σ → α → σ × Change} {P : σ → Prop} {xs : List α} {s : σ} (start : P s)
    (step : ∀ x ∈ xs, ∀ s, P s → P (body s x).1) : P (sweep body s xs).1 := by
  induction xs generalizing s with
  | nil => exact start
  | cons x rest ih =>
      apply ih (step x List.mem_cons_self s start)
      intro y hy
      exact step y (List.mem_cons_of_mem x hy)

theorem rank_sweep_le {body : σ → α → σ × Change} {rank : σ → Nat} {xs : List α}
    (keeps : ∀ x ∈ xs, ∀ s, rank (body s x).1 ≤ rank s) (s : σ) : rank (sweep body s xs).1 ≤ rank s :=
  sweep_induction (P := fun t => rank t ≤ rank s) (Nat.le_refl _) fun x hx t ht => Nat.le_trans (keeps x hx t) ht

/-- A sweep decreases a rank if each change that its body reports does and nothing increases it. -/
theorem rank_sweep_lt {body : σ → α → σ × Change} {rank : σ → Nat} {xs : List α}
    (keeps : ∀ x ∈ xs, ∀ s, rank (body s x).1 ≤ rank s)
    (decreases : ∀ x ∈ xs, ∀ s, (body s x).2 = .changed → rank (body s x).1 < rank s) {s : σ}
    (h : (sweep body s xs).2 = .changed) : rank (sweep body s xs).1 < rank s := by
  induction xs generalizing s with
  | nil => cases h
  | cons x rest ih =>
      have keepsRest := fun y hy => keeps y (List.mem_cons_of_mem x hy)
      rw [sweep, Change.join_eq_changed] at h
      rcases h with h | h
      · exact Nat.lt_of_le_of_lt (rank_sweep_le keepsRest _) (decreases x List.mem_cons_self s h)
      · exact Nat.lt_of_lt_of_le (ih keepsRest (fun y hy => decreases y (List.mem_cons_of_mem x hy)) h)
          (keeps x List.mem_cons_self s)

/-- A sweep that reports no change has found nothing to change at any place of the list. -/
theorem unchanged_of_sweep {body : σ → α → σ × Change} {xs : List α} {s : σ}
    (same : ∀ x ∈ xs, ∀ s, (body s x).2 = .unchanged → (body s x).1 = s) (h : (sweep body s xs).2 = .unchanged) :
    (sweep body s xs).1 = s ∧ ∀ x ∈ xs, (body s x).2 = .unchanged := by
  induction xs generalizing s with
  | nil => exact ⟨rfl, by simp⟩
  | cons x rest ih =>
      rw [sweep, Change.join_eq_unchanged] at h
      have hsame := same x List.mem_cons_self s h.1
      have hrest := h.2
      rw [hsame] at hrest
      obtain ⟨hlast, hall⟩ := ih (fun y hy => same y (List.mem_cons_of_mem x hy)) hrest
      refine ⟨?_, List.forall_mem_cons.mpr ⟨h.1, hall⟩⟩
      show (sweep body (body s x).1 rest).1 = s
      rw [hsame]
      exact hlast

/-- Repeats a body until it reports no change. -/
def settle (body : σ → σ × Change) (rank : σ → Nat)
    (decreases : ∀ s, (body s).2 = .changed → rank (body s).1 < rank s) (s : σ) : σ :=
  match _report : body s with
  | (s', .unchanged) => s'
  | (s', .changed) => settle body rank decreases s'
termination_by rank s
decreasing_by
  have := decreases s (by rw [_report])
  rwa [_report] at this

/-- Repeats a body until it reports no change, at most `limit` times. -/
def settleWithin (body : σ → σ × Change) : Nat → σ → Option σ
  | 0, _ => none
  | limit + 1, s =>
    match body s with
    | (s', .unchanged) => some s'
    | (s', .changed) => settleWithin body limit s'

theorem settle_of_unchanged {body : σ → σ × Change} {rank : σ → Nat}
    {decreases : ∀ s, (body s).2 = .changed → rank (body s).1 < rank s} {s s' : σ}
    (h : body s = (s', .unchanged)) :
    settle body rank decreases s = s' := by
  rw [settle]
  split <;> simp_all

theorem settle_of_changed {body : σ → σ × Change} {rank : σ → Nat}
    {decreases : ∀ s, (body s).2 = .changed → rank (body s).1 < rank s} {s s' : σ}
    (h : body s = (s', .changed)) :
    settle body rank decreases s = settle body rank decreases s' := by
  rw [settle]
  split <;> simp_all

/-- What holds of the start and is kept by the body holds at the end. -/
theorem settle_induction {body : σ → σ × Change} {rank : σ → Nat}
    {decreases : ∀ s, (body s).2 = .changed → rank (body s).1 < rank s} {P : σ → Prop} {s : σ} (start : P s)
    (step : ∀ s, P s → P (body s).1) : P (settle body rank decreases s) := by
  fun_induction settle body rank decreases s with
  | case1 s s' h =>
      have := step s start
      rwa [h] at this
  | case2 s s' h ih =>
      refine ih ?_
      have := step s start
      rwa [h] at this

/-- The end is what a body leaves that reports no change. -/
theorem exists_unchanged_settle {body : σ → σ × Change} {rank : σ → Nat}
    {decreases : ∀ s, (body s).2 = .changed → rank (body s).1 < rank s} (s : σ) :
    ∃ last, body last = (settle body rank decreases s, .unchanged) := by
  fun_induction settle body rank decreases s with
  | case1 s s' h => exact ⟨s, h⟩
  | case2 s s' h ih => exact ih

/-- Whatever the number of rounds, what is found within them is the end. -/
theorem settle_eq_of_settleWithin {body : σ → σ × Change} {rank : σ → Nat}
    {decreases : ∀ s, (body s).2 = .changed → rank (body s).1 < rank s} {limit : Nat} {s s' : σ}
    (h : settleWithin body limit s = some s') : settle body rank decreases s = s' := by
  induction limit generalizing s with
  | zero => cases h
  | succ limit ih =>
      unfold settleWithin at h
      split at h
      · rename_i hbody
        cases h
        exact settle_of_unchanged hbody
      · rename_i hbody
        rw [settle_of_changed hbody]
        exact ih h

/-- More rounds than the rank of the start are never needed. -/
theorem settleWithin_of_rank_lt {body : σ → σ × Change} {rank : σ → Nat}
    {decreases : ∀ s, (body s).2 = .changed → rank (body s).1 < rank s} {limit : Nat} {s : σ} (h : rank s < limit) :
    settleWithin body limit s = some (settle body rank decreases s) := by
  induction limit generalizing s with
  | zero => exact absurd h (Nat.not_lt_zero _)
  | succ limit ih =>
      unfold settleWithin
      split
      · rename_i hbody
        rw [settle_of_unchanged hbody]
      · rename_i hbody
        have hrank := decreases s (by rw [hbody])
        rw [hbody] at hrank
        rw [settle_of_changed hbody]
        exact ih (Nat.lt_of_lt_of_le hrank (Nat.le_of_lt_succ h))

/-- The arguments of `f` in order, from `a` to its fixed point, if there are at most `limit` of them. -/
def trajectory? [DecidableEq α] (f : α → α) : Nat → α → Option (List α)
  | 0, _ => none
  | limit + 1, a =>
    let next := f a
    if next = a then some [a] else (trajectory? f limit next).map (a :: ·)

theorem getLast?_of_trajectory? [DecidableEq α] {f : α → α} {limit : Nat} {a : α} {path : List α}
    (h : trajectory? f limit a = some path) : ∃ last, path.getLast? = some last ∧ f last = last := by
  induction limit generalizing a path with
  | zero => cases h
  | succ limit ih =>
      rw [trajectory?] at h
      by_cases hfix : f a = a
      · simp only [hfix, if_true, Option.some.injEq] at h
        exact ⟨a, by simp [← h], hfix⟩
      · simp only [hfix, if_false, Option.map_eq_some_iff] at h
        obtain ⟨rest, hrest, rfl⟩ := h
        obtain ⟨last, hlast, hfixed⟩ := ih hrest
        refine ⟨last, ?_, hfixed⟩
        cases rest with
        | nil => cases hlast
        | cons b rest => simpa using hlast

/-- A function that keeps an invariant, and decreases a rank wherever it does not return its argument, comes to a fixed
point of which the invariant holds. -/
theorem exists_fixed_of_rank [DecidableEq α] {f : α → α} {rank : α → Nat} {P : α → Prop} {a : α} (start : P a)
    (keeps : ∀ a, P a → P (f a)) (decreases : ∀ a, P a → f a ≠ a → rank (f a) < rank a) :
    ∃ path last, trajectory? f (rank a + 1) a = some path ∧ path.getLast? = some last ∧ f last = last ∧ P last := by
  have hwithin : ∀ limit a, P a → rank a < limit →
      ∃ path last, trajectory? f limit a = some path ∧ path.getLast? = some last ∧ P last := by
    intro limit
    induction limit with
    | zero => exact fun a _ h => absurd h (Nat.not_lt_zero _)
    | succ limit ih =>
        intro a ha hrank
        rw [trajectory?]
        by_cases hfix : f a = a
        · exact ⟨[a], a, by simp [hfix], rfl, ha⟩
        · have hless := decreases a ha hfix
          obtain ⟨path, last, hpath, hlast, hP⟩ := ih (f a) (keeps a ha) (by omega)
          refine ⟨a :: path, last, by simp [hfix, hpath], ?_, hP⟩
          rw [List.getLast?_cons, hlast, Option.getD_some]
  obtain ⟨path, last, hpath, hlast, hP⟩ := hwithin (rank a + 1) a start (Nat.lt_succ_self _)
  obtain ⟨_, hsame, hfixed⟩ := getLast?_of_trajectory? hpath
  rw [hlast, Option.some.injEq] at hsame
  exact ⟨path, last, hpath, hlast, hsame ▸ hfixed, hP⟩

end PredictiveParsing
