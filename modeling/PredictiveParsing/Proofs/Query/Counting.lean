import PredictiveParsing.Query.Context

/-! # Counting what computations do

Beside the state that the computations share, a context can count how often each of them has been requested, has run
to success and has failed. Nothing a computation does depends on these counts: without them, the same requests give
the same answers, marks and state. -/

namespace PredictiveParsing

namespace Query

/-- How often a computation has been requested, has run to success and has failed. -/
structure Tally where
  requests : Nat
  successes : Nat
  failures : Nat
deriving DecidableEq, Inhabited

namespace Tally

def request (tally : Tally) : Tally := { tally with requests := tally.requests + 1 }

def succeed (tally : Tally) : Tally := { tally with successes := tally.successes + 1 }

def fail (tally : Tally) : Tally := { tally with failures := tally.failures + 1 }

end Tally

/-- A shared state with a tally of each computation. -/
structure Counted (ν σ : Type) where
  state : σ
  tallies : ν → Tally

/-- What a request of some computation comes to. -/
abbrev Answer {ν : Type} (family : Family ν) : Type :=
  (name : ν) × Except (Failure (family.Error name)) (family.Value name)

variable {ν σ ε ε' α β : Type} {family : Family ν}

namespace Context

def mapState {τ : Type} (f : σ → τ) (context : Context family σ) : Context family τ :=
  ⟨context.marks, f context.state⟩

/-- A context without its tallies. -/
def erase (context : Context family (Counted ν σ)) : Context family σ := context.mapState Counted.state

theorem erase_setMark [DecidableEq ν] (context : Context family (Counted ν σ)) (name : ν)
    (mark : Mark (family.Value name)) : (context.setMark name mark).erase = context.erase.setMark name mark := rfl

end Context

namespace Counted

/-- Nothing has been counted. -/
def start (state : σ) : Counted ν σ := ⟨state, fun _ => ⟨0, 0, 0⟩⟩

/-- Changes the state and counts nothing. -/
def change (f : σ → σ) (counted : Counted ν σ) : Counted ν σ := { counted with state := f counted.state }

/-- Changes one tally. -/
def count [DecidableEq ν] (name : ν) (f : Tally → Tally) (counted : Counted ν σ) : Counted ν σ :=
  { counted with
    tallies := fun other => if other = name then f (counted.tallies other) else counted.tallies other }

end Counted

/-- Changes one tally of a context. -/
def Context.count [DecidableEq ν] (context : Context family (Counted ν σ)) (name : ν) (f : Tally → Tally) :
    Context family (Counted ν σ) := context.mapState (.count name f)

/-! How actions run. -/

namespace Action

theorem run_update (context : Context family σ) (f : σ → σ) :
    (update f : Action family σ ε Unit).run context = (.ok (), context.mapState f) := rfl

theorem run_bind_of_ok {action : Action family σ ε α} {next : α → Action family σ ε β}
    {context after : Context family σ} {a : α} (h : action.run context = (.ok a, after)) :
    (action >>= next).run context = (next a).run after := by
  show ExceptT.bindCont next (action.run context).1 (action.run context).2 = _
  rw [h]
  rfl

theorem run_bind_of_error {action : Action family σ ε α} {next : α → Action family σ ε β}
    {context after : Context family σ} {e : Failure ε} (h : action.run context = (.error e, after)) :
    (action >>= next).run context = (.error e, after) := by
  show ExceptT.bindCont next (action.run context).1 (action.run context).2 = _
  rw [h]
  rfl

theorem run_mapError (f : ε → ε') (action : Action family σ ε α) (context : Context family σ) :
    (action.mapError f).run context =
      ((action.run context).1.mapError (Failure.map f), (action.run context).2) := rfl

/-- Counts whether an action ends with a value. -/
def countEnd [DecidableEq ν] (name : ν) (action : Action family (Counted ν σ) ε α) :
    Action family (Counted ν σ) ε α :=
  ExceptT.mk fun context =>
    match action.run context with
    | (.ok a, context) => (.ok a, context.count name .succeed)
    | (.error e, context) => (.error e, context.count name .fail)

end Action

/-! How requests run, by the mark of what is requested. -/

section Marks

variable [DecidableEq ν] {compute : Requests family σ → Requests family σ} {depth : Nat} {name : ν}
  {context after : Context family σ} {value : family.Value name} {e : family.Error name}

theorem requestAt_of_finished (mark : context.marks name = .finished value) :
    (requestAt compute (depth + 1) name).run context = (.ok value, context) := by
  simp only [requestAt, ExceptT.run_mk, mark]

theorem requestAt_of_running (mark : context.marks name = .running) :
    (requestAt compute (depth + 1) name).run context = (.error .cycle, context) := by
  simp only [requestAt, ExceptT.run_mk, mark]

theorem requestAt_of_ok (mark : context.marks name = .idle)
    (h : (compute (requestAt compute depth) name).run (context.setMark name .running) = (.ok value, after)) :
    (requestAt compute (depth + 1) name).run context = (.ok value, after.setMark name (.finished value)) := by
  simp only [requestAt, ExceptT.run_mk, mark, h]

theorem requestAt_of_error (mark : context.marks name = .idle)
    (h : (compute (requestAt compute depth) name).run (context.setMark name .running) =
      (.error (.error e), after)) :
    (requestAt compute (depth + 1) name).run context = (.error (.error e), after.setMark name .idle) := by
  simp only [requestAt, ExceptT.run_mk, mark, h]

theorem requestAt_of_cycle (mark : context.marks name = .idle)
    (h : (compute (requestAt compute depth) name).run (context.setMark name .running) = (.error .cycle, after)) :
    (requestAt compute (depth + 1) name).run context = (.error .cycle, after) := by
  simp only [requestAt, ExceptT.run_mk, mark, h]

end Marks

section Counting

variable [DecidableEq ν]

/-- Requests that are counted. -/
def countRequests (request : Requests family (Counted ν σ)) : Requests family (Counted ν σ) := fun name => do
  update (.count name .request)
  request name

/-- Computations that count what they request and how they end. -/
def countRuns (compute : Requests family (Counted ν σ) → Requests family (Counted ν σ)) :
    Requests family (Counted ν σ) → Requests family (Counted ν σ) := fun request name =>
  (compute (countRequests request) name).countEnd name

/-- Requests a computation and counts what is done for it. -/
def countedRequest (compute : Requests family (Counted ν σ) → Requests family (Counted ν σ)) :
    Requests family (Counted ν σ) :=
  countRequests (request (countRuns compute))

end Counting

/-- The answers to one request after the other in the same context. -/
def serve (request : Requests family σ) :
    List ν → Context family σ → List (Answer family) × Context family σ
  | [], context => ([], context)
  | name :: rest, context =>
    let (answer, context) := (request name).run context
    let (answers, context) := serve request rest context
    (⟨name, answer⟩ :: answers, context)

/-! Without the tallies an action is the plain one. -/

/-- An action does what a plain one does, apart from counting. -/
def Erases (action : Action family (Counted ν σ) ε α) (plain : Action family σ ε α) : Prop :=
  ∀ context, plain.run context.erase = ((action.run context).1, (action.run context).2.erase)

/-- Requests do what plain ones do, apart from counting. -/
def ErasesAll (request : Requests family (Counted ν σ)) (plain : Requests family σ) : Prop :=
  ∀ name, Erases (request name) (plain name)

namespace Erases

variable {action : Action family (Counted ν σ) ε α} {plain : Action family σ ε α}

theorem pure (a : α) :
    Erases (Pure.pure a : Action family (Counted ν σ) ε α) (Pure.pure a : Action family σ ε α) := fun _ => rfl

theorem throw (e : Failure ε) :
    Erases (MonadExcept.throw e : Action family (Counted ν σ) ε α) (MonadExcept.throw e : Action family σ ε α) :=
  fun _ => rfl

theorem update (f : σ → σ) :
    Erases (Query.update (.change f) : Action family (Counted ν σ) ε Unit) (Query.update f : Action family σ ε Unit) :=
  fun _ => rfl

theorem bind {next : α → Action family (Counted ν σ) ε β} {plainNext : α → Action family σ ε β}
    (first : Erases action plain) (later : ∀ a, Erases (next a) (plainNext a)) :
    Erases (action >>= next) (plain >>= plainNext) := by
  intro context
  have hfirst := first context
  cases hrun : action.run context with
  | mk answer after =>
      rw [hrun] at hfirst
      cases answer with
      | ok a =>
          rw [Action.run_bind_of_ok hrun, Action.run_bind_of_ok hfirst]
          exact later a after
      | error e => rw [Action.run_bind_of_error hrun, Action.run_bind_of_error hfirst]

theorem mapError (f : ε → ε') (h : Erases action plain) : Erases (action.mapError f) (plain.mapError f) := by
  intro context
  rw [Action.run_mapError, Action.run_mapError, h context]

variable [DecidableEq ν]

theorem countEnd (name : ν) (h : Erases action plain) : Erases (action.countEnd name) plain := by
  intro context
  rw [h context]
  simp only [Action.countEnd, ExceptT.run_mk]
  split <;> rename_i hrun <;> rw [hrun] <;> rfl

end Erases

section Erasure

variable [DecidableEq ν] {compute : Requests family (Counted ν σ) → Requests family (Counted ν σ)}
  {plain : Requests family σ → Requests family σ}

theorem erases_countRequests {request : Requests family (Counted ν σ)} {plain : Requests family σ}
    (h : ErasesAll request plain) : ErasesAll (countRequests request) plain := by
  intro name context
  rw [countRequests, Action.run_bind_of_ok (Action.run_update context _), ← h name]
  rfl

/-- Requests at a given depth do what plain ones do if the computations do, given such requests. -/
theorem erases_requestAt (computes : ∀ request plainRequest, ErasesAll request plainRequest →
    ErasesAll (compute request) (plain plainRequest)) (depth : Nat) :
    ErasesAll (requestAt compute depth) (requestAt plain depth) := by
  induction depth with
  | zero => exact fun _ => Erases.throw .cycle
  | succ depth ih =>
      intro name context
      have hrun := computes _ _ ih name (context.setMark name .running)
      rw [Context.erase_setMark] at hrun
      cases mark : context.marks name with
      | finished value =>
          have hmark : context.erase.marks name = .finished value := mark
          rw [requestAt_of_finished mark, requestAt_of_finished hmark]
      | running =>
          have hmark : context.erase.marks name = .running := mark
          rw [requestAt_of_running mark, requestAt_of_running hmark]
      | idle =>
          have hmark : context.erase.marks name = .idle := mark
          cases h : (compute (requestAt compute depth) name).run (context.setMark name .running) with
          | mk answer after =>
              rw [h] at hrun
              cases answer with
              | ok value =>
                  rw [requestAt_of_ok mark h, requestAt_of_ok hmark hrun]
                  rfl
              | error e =>
                  cases e with
                  | error e =>
                      rw [requestAt_of_error mark h, requestAt_of_error hmark hrun]
                      rfl
                  | cycle => rw [requestAt_of_cycle mark h, requestAt_of_cycle hmark hrun]

theorem erases_countedRequest (computes : ∀ request plainRequest, ErasesAll request plainRequest →
    ErasesAll (compute request) (plain plainRequest)) :
    ErasesAll (countedRequest compute) (request plain) := by
  refine erases_countRequests (erases_requestAt ?_ _)
  intro request plainRequest h name
  exact (computes _ _ (erases_countRequests h) name).countEnd name

end Erasure

theorem serve_erase {request : Requests family (Counted ν σ)} {plain : Requests family σ}
    (h : ErasesAll request plain) (names : List ν) (context : Context family (Counted ν σ)) :
    serve plain names context.erase = ((serve request names context).1, (serve request names context).2.erase) := by
  induction names generalizing context with
  | nil => rfl
  | cons name rest ih =>
      show ((⟨name, ((plain name).run context.erase).1⟩ ::
          (serve plain rest ((plain name).run context.erase).2).1 : List (Answer family)),
        (serve plain rest ((plain name).run context.erase).2).2) = _
      rw [h name context, ih]
      rfl

end Query

end PredictiveParsing
