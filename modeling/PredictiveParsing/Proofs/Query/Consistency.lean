import PredictiveParsing.Proofs.Query.Counting

/-! # Marks, tallies and results

Suppose that each computation has a result, which it yields whenever the computations of lower rank that it requests
yield theirs. Then every request yields the result, whatever has been requested before. The mark and the tally of a
computation always agree with its result: one with a value runs to success when it is first requested and never
again, one with an error runs at each request, and its mark is taken back each time. -/

namespace PredictiveParsing

namespace Query

variable {ν σ ε ε' α β : Type} {family : Family ν}

/-- The mark with which a run ends that comes to a given result. -/
def Mark.after {ε α : Type} : Except ε α → Mark α
  | .ok value => .finished value
  | .error _ => .idle

/-- What is counted at the end of a run that comes to a given result. -/
def Tally.after {ε α : Type} : Except ε α → Tally → Tally
  | .ok _ => succeed
  | .error _ => fail

/-- The marks and tallies that a computation with a given result can have. -/
inductive Accounts {ε α : Type} : Except ε α → Mark α → Tally → Prop where
  | unused (value : α) : Accounts (.ok value) .idle ⟨0, 0, 0⟩
  | begun (value : α) (n : Nat) : Accounts (.ok value) .running ⟨n + 1, 0, 0⟩
  | kept (value : α) (n : Nat) : Accounts (.ok value) (.finished value) ⟨n + 1, 1, 0⟩
  | failed (e : ε) (n : Nat) : Accounts (.error e) .idle ⟨n, 0, n⟩
  | retried (e : ε) (n : Nat) : Accounts (.error e) .running ⟨n + 1, 0, n⟩

namespace Accounts

variable {result : Except ε α} {mark : Mark α} {tally : Tally} {value : α} {e : ε}

theorem start (result : Except ε α) : Accounts result .idle ⟨0, 0, 0⟩ := by
  cases result with
  | ok value => exact unused value
  | error e => exact failed e 0

theorem eq_ok_of_finished (h : Accounts result (.finished value) tally) : result = .ok value := by
  cases h
  rfl

theorem begin (h : Accounts result .idle tally) : Accounts result .running tally.request := by
  cases h with
  | unused value => exact begun value 0
  | failed e n => exact retried e n

theorem again (h : Accounts result (.finished value) tally) :
    Accounts result (.finished value) tally.request := by
  cases h with
  | kept value n => exact kept value (n + 1)

/-- The run of a computation ends. -/
theorem finish (h : Accounts result .running tally) : Accounts result (.after result) (Tally.after result tally) := by
  cases h with
  | begun value n => exact kept value n
  | retried e n => exact failed e (n + 1)

/-- While a computation that has a value is not running, it has been requested just if it is finished; it has then
run to success once. -/
theorem of_ok (h : Accounts (.ok value : Except ε α) mark tally) (rest : mark ≠ .running) :
    mark = (if tally.requests = 0 then .idle else .finished value) ∧ tally.successes = min tally.requests 1 ∧
      tally.failures = 0 := by
  cases h with
  | unused => simp
  | begun => exact absurd rfl rest
  | kept value n => simp

/-- While a computation that has an error is not running, it is idle, and has failed as often as it has been
requested. -/
theorem of_error (h : Accounts (.error e : Except ε α) mark tally) (rest : mark ≠ .running) :
    mark = .idle ∧ tally.successes = 0 ∧ tally.failures = tally.requests := by
  cases h with
  | failed e n => simp
  | retried => exact absurd rfl rest

end Accounts

variable {results : (name : ν) → Except (family.Error name) (family.Value name)}

/-- The marks and tallies of all computations agree with their results. -/
def Consistent (results : (name : ν) → Except (family.Error name) (family.Value name))
    (context : Context family (Counted ν σ)) : Prop :=
  ∀ name, Accounts (results name) (context.marks name) (context.state.tallies name)

/-- A context comes later than another one, with the same computations running. -/
structure Later (before after : Context family (Counted ν σ)) : Prop where
  running : ∀ name, after.marks name = .running ↔ before.marks name = .running
  requests : ∀ name, (before.state.tallies name).requests ≤ (after.state.tallies name).requests

theorem Later.refl (context : Context family (Counted ν σ)) : Later context context :=
  ⟨fun _ => Iff.rfl, fun _ => Nat.le_refl _⟩

theorem Later.trans {before between after : Context family (Counted ν σ)} (h : Later before between)
    (h' : Later between after) : Later before after :=
  ⟨fun name => (h'.running name).trans (h.running name),
    fun name => Nat.le_trans (h.requests name) (h'.requests name)⟩

theorem consistent_start (state : σ) : Consistent results (.start (.start state)) := fun name =>
  Accounts.start (results name)

section Update

variable [DecidableEq ν] {name other : ν} {mark : Mark (family.Value name)} {f : Tally → Tally}

theorem marks_setMark (context : Context family σ) : (context.setMark name mark).marks name = mark := by
  simp [Context.setMark]

theorem marks_setMark_of_ne (context : Context family σ) (ne : other ≠ name) :
    (context.setMark name mark).marks other = context.marks other := by
  simp [Context.setMark, ne]

variable {context : Context family (Counted ν σ)}

theorem tallies_count (context : Context family (Counted ν σ)) :
    (context.count name f).state.tallies name = f (context.state.tallies name) := by
  simp [Context.count, Context.mapState, Counted.count]

theorem tallies_count_of_ne (context : Context family (Counted ν σ)) (ne : other ≠ name) :
    (context.count name f).state.tallies other = context.state.tallies other := by
  simp [Context.count, Context.mapState, Counted.count, ne]

theorem Consistent.count (h : Consistent results context)
    (accounts : Accounts (results name) (context.marks name) (f (context.state.tallies name))) :
    Consistent results (context.count name f) := by
  intro other
  by_cases heq : other = name
  · subst heq
    rw [tallies_count]
    exact accounts
  · rw [tallies_count_of_ne context heq]
    exact h other

theorem Consistent.update (h : Consistent results context)
    (accounts : Accounts (results name) mark (f (context.state.tallies name))) :
    Consistent results ((context.count name f).setMark name mark) := by
  intro other
  show Accounts _ _ ((context.count name f).state.tallies other)
  by_cases heq : other = name
  · subst heq
    rw [marks_setMark, tallies_count]
    exact accounts
  · rw [marks_setMark_of_ne _ heq, tallies_count_of_ne context heq]
    exact h other

theorem later_count (grows : ∀ tally, tally.requests ≤ (f tally).requests) :
    Later context (context.count name f) := by
  refine ⟨fun _ => Iff.rfl, fun other => ?_⟩
  by_cases heq : other = name
  · subst heq
    rw [tallies_count]
    exact grows _
  · exact Nat.le_of_eq (congrArg Tally.requests (tallies_count_of_ne context heq).symm)

/-- The mark of a computation that has run is replaced, and then just those are running that were before. -/
theorem Later.replace {before after : Context family (Counted ν σ)}
    (h : Later (before.setMark name .running) after) (idle : before.marks name = .idle) (ne : mark ≠ .running) :
    Later before (after.setMark name mark) := by
  refine ⟨fun other => ?_, h.requests⟩
  by_cases heq : other = name
  · subst heq
    rw [marks_setMark, idle]
    exact ⟨fun hmark => absurd hmark ne, nofun⟩
  · rw [marks_setMark_of_ne _ heq]
    refine (h.running other).trans ?_
    rw [marks_setMark_of_ne _ heq]

end Update

/-! What an action yields when no computation of a rank below `n` is running. -/

/-- No computation of a rank below `n` is running. -/
def Free (rank : ν → Nat) (n : Nat) (context : Context family σ) : Prop :=
  ∀ name, rank name < n → context.marks name ≠ .running

/-- In a consistent context an action yields a result, and leaves the context consistent. -/
def Yields (results : (name : ν) → Except (family.Error name) (family.Value name)) (rank : ν → Nat) (n : Nat)
    (action : Action family (Counted ν σ) ε α) (result : Except ε α) : Prop :=
  ∀ context, Consistent results context → Free rank n context →
    ∃ after, action.run context = (result.mapError .error, after) ∧ Consistent results after ∧ Later context after

variable {rank : ν → Nat} {n m : Nat}

theorem Later.free {before after : Context family (Counted ν σ)} (h : Later before after)
    (free : Free rank n before) : Free rank n after := fun name hlt hrunning =>
  free name hlt ((h.running name).mp hrunning)

namespace Yields

variable {action : Action family (Counted ν σ) ε α} {next : α → Action family (Counted ν σ) ε β}
  {result : Except ε α}

theorem mono (h : Yields results rank n action result) (le : n ≤ m) : Yields results rank m action result :=
  fun context consistent free => h context consistent fun name hlt => free name (Nat.lt_of_lt_of_le hlt le)

theorem pure (a : α) :
    Yields results rank n (Pure.pure a : Action family (Counted ν σ) ε α) (.ok a) := fun context consistent _ =>
  ⟨context, rfl, consistent, .refl context⟩

theorem throw (e : ε) :
    Yields results rank n (MonadExcept.throw (.error e) : Action family (Counted ν σ) ε α) (.error e) :=
  fun context consistent _ => ⟨context, rfl, consistent, .refl context⟩

theorem change (f : σ → σ) :
    Yields results rank n (update (.change f) : Action family (Counted ν σ) ε Unit) (.ok ()) := fun context consistent _ =>
  ⟨context.mapState (.change f), rfl, consistent, fun _ => Iff.rfl, fun _ => Nat.le_refl _⟩

theorem bind {b : Except ε β} {a : α} (first : Yields results rank n action (.ok a))
    (later : Yields results rank n (next a) b) : Yields results rank n (action >>= next) b := by
  intro context consistent free
  obtain ⟨between, hrun, hbetween, hlater⟩ := first context consistent free
  obtain ⟨after, hnext, hafter, hlater'⟩ := later between hbetween (hlater.free free)
  refine ⟨after, ?_, hafter, hlater.trans hlater'⟩
  rw [Action.run_bind_of_ok hrun, hnext]

theorem bind_error {e : ε} (first : Yields results rank n action (.error e)) :
    Yields results rank n (action >>= next) (.error e) := by
  intro context consistent free
  obtain ⟨after, hrun, hafter, hlater⟩ := first context consistent free
  exact ⟨after, Action.run_bind_of_error hrun, hafter, hlater⟩

theorem mapError (f : ε → ε') (h : Yields results rank n action result) :
    Yields results rank n (action.mapError f) (result.mapError f) := by
  intro context consistent free
  obtain ⟨after, hrun, hafter, hlater⟩ := h context consistent free
  refine ⟨after, ?_, hafter, hlater⟩
  rw [Action.run_mapError, hrun]
  cases result <;> rfl

end Yields

section Request

variable [DecidableEq ν] {compute : Requests family (Counted ν σ) → Requests family (Counted ν σ)}

/-- Each computation yields its result when requests for those of lower rank do. -/
def Computes (results : (name : ν) → Except (family.Error name) (family.Value name)) (rank : ν → Nat)
    (compute : Requests family (Counted ν σ) → Requests family (Counted ν σ)) : Prop :=
  ∀ request name, (∀ other, rank other < rank name → Yields results rank (rank name) (request other) (results other)) →
    Yields results rank (rank name) (compute request name) (results name)

theorem run_countEnd {name : ν} {action : Action family (Counted ν σ) ε α} {context after : Context family (Counted ν σ)}
    {result : Except ε α} (h : action.run context = (result.mapError .error, after)) :
    (action.countEnd name).run context = (result.mapError .error, after.count name (Tally.after result)) := by
  simp only [Action.countEnd, ExceptT.run_mk, h]
  cases result <;> rfl

theorem requestAt_of_result {compute : Requests family σ → Requests family σ} {depth : Nat} {name : ν}
    {context after : Context family σ} {result : Except (family.Error name) (family.Value name)}
    (mark : context.marks name = .idle)
    (h : (compute (requestAt compute depth) name).run (context.setMark name .running) =
      (result.mapError .error, after)) :
    (requestAt compute (depth + 1) name).run context =
      (result.mapError .error, after.setMark name (.after result)) := by
  cases result with
  | ok value => exact requestAt_of_ok mark h
  | error e => exact requestAt_of_error mark h

omit [DecidableEq ν] in
theorem requests_le_after {result : Except ε α} (tally : Tally) :
    tally.requests ≤ (Tally.after result tally).requests := by
  cases result <;> exact Nat.le_refl _

/-- A request that has just been counted yields the result of what is requested. -/
theorem run_requestAt_succ {depth : Nat} {name : ν} {context : Context family (Counted ν σ)}
    (computes : Yields results rank (rank name)
      (compute (countRequests (requestAt (countRuns compute) depth)) name) (results name))
    (consistent : Consistent results context) (free : Free rank (rank name + 1) context) :
    ∃ after, (requestAt (countRuns compute) (depth + 1) name).run (context.count name .request) =
        ((results name).mapError .error, after) ∧
      Consistent results after ∧ Later (context.count name .request) after := by
  have haccounts := consistent name
  cases mark : context.marks name with
  | running => exact absurd mark (free name (Nat.lt_succ_self _))
  | finished value =>
      have hmark : (context.count name .request).marks name = .finished value := mark
      rw [mark] at haccounts
      refine ⟨context.count name .request, ?_, consistent.count ?_, .refl _⟩
      · rw [requestAt_of_finished hmark, haccounts.eq_ok_of_finished]
        rfl
      · rw [mark]
        exact haccounts.again
  | idle =>
      have hmark : (context.count name .request).marks name = .idle := mark
      rw [mark] at haccounts
      -- the computation runs in the context where it is marked, which is as free as it asks for
      have hfree : Free rank (rank name) ((context.count name .request).setMark name .running) := by
        intro other hlt
        rw [marks_setMark_of_ne _ (by rintro rfl; exact Nat.lt_irrefl _ hlt)]
        exact free other (Nat.lt_succ_of_lt hlt)
      obtain ⟨after, hrun, hafter, hlater⟩ := computes _ (consistent.update haccounts.begin) hfree
      have hend : (countRuns compute (requestAt (countRuns compute) depth) name).run
          ((context.count name .request).setMark name .running) =
          ((results name).mapError .error, after.count name (Tally.after (results name))) := run_countEnd hrun
      have hlast := hafter name
      rw [(hlater.running name).mpr (marks_setMark _)] at hlast
      have hcounted : Later _ (after.count name (Tally.after (results name))) :=
        hlater.trans (later_count requests_le_after)
      have hstopped : Mark.after (results name) ≠ .running := by cases results name <;> nofun
      exact ⟨_, requestAt_of_result hmark hend, hafter.update hlast.finish, hcounted.replace hmark hstopped⟩

/-- A request at a depth above the rank yields the result. -/
theorem run_requestAt (computes : Computes results rank compute) {depth : Nat} {name : ν} (lt : rank name < depth)
    {context : Context family (Counted ν σ)} (consistent : Consistent results context)
    (free : Free rank (rank name + 1) context) :
    ∃ after, (requestAt (countRuns compute) depth name).run (context.count name .request) =
        ((results name).mapError .error, after) ∧
      Consistent results after ∧ Later (context.count name .request) after := by
  induction depth generalizing name context with
  | zero => exact absurd lt (Nat.not_lt_zero _)
  | succ depth ih =>
      refine run_requestAt_succ (computes _ name fun other hlt => ?_) consistent free
      have hyields : Yields results rank (rank other + 1)
          (countRequests (requestAt (countRuns compute) depth) other) (results other) := by
        intro context consistent free
        obtain ⟨after, hrun, hafter, hlater⟩ := ih (by omega) consistent free
        exact ⟨after, hrun, hafter, (later_count fun _ => Nat.le_succ _).trans hlater⟩
      exact hyields.mono hlt

/-- One request after the other: each answer is the result, and each request has been counted. -/
theorem serve_countedRequest (computes : Computes results rank compute)
    (bound : ∀ name, rank name < family.names.length) (names : List ν) {context : Context family (Counted ν σ)}
    (consistent : Consistent results context) (rest : ∀ name, context.marks name ≠ .running) :
    ∃ after, serve (countedRequest compute) names context =
        (names.map fun name => ⟨name, (results name).mapError .error⟩, after) ∧
      Consistent results after ∧ (∀ name, after.marks name ≠ .running) ∧
      ∀ name, (context.state.tallies name).requests + names.count name ≤ (after.state.tallies name).requests := by
  induction names generalizing context with
  | nil => exact ⟨context, rfl, consistent, rest, fun name => by simp⟩
  | cons first others ih =>
      obtain ⟨between, hrun, hbetween, hlater⟩ :=
        run_requestAt computes (bound first) consistent fun name _ => rest name
      have hrest : ∀ name, between.marks name ≠ .running := fun name h => rest name ((hlater.running name).mp h)
      obtain ⟨after, hserve, hafter, hquiet, hcount⟩ := ih hbetween hrest
      refine ⟨after, ?_, hafter, hquiet, fun name => ?_⟩
      · have hfirst : (countedRequest compute first).run context = ((results first).mapError .error, between) := hrun
        simp only [serve, hfirst, hserve, List.map_cons]
      · refine Nat.le_trans ?_ (hcount name)
        have hrequests := hlater.requests name
        by_cases heq : name = first
        · subst heq
          rw [tallies_count] at hrequests
          simp only [Tally.request] at hrequests
          rw [List.count_cons_self]
          omega
        · rw [tallies_count_of_ne context heq] at hrequests
          rw [List.count_cons_of_ne (Ne.symm heq)]
          omega

end Request

end Query

end PredictiveParsing
