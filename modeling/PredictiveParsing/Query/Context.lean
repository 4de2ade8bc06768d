/-! # Computations that request each other

A family of named computations shares a context. The value of a computation that has succeeded is kept, so that it
runs to success once; a computation that fails is run again when it is next requested. While a computation runs it is
marked, and a request for a marked one is a cycle. A cycle is not an error of a computation: it goes through every
computation on the way, and leaves their marks as they are. -/

namespace PredictiveParsing

namespace Query

/-- The names of computations with what each of them yields. -/
structure Family (ν : Type) where
  names : List ν
  Value : ν → Type
  Error : ν → Type

/-- Where a computation stands. -/
inductive Mark (α : Type) where
  | idle
  | running
  | finished (value : α)

/-- Why a request has no value. -/
inductive Failure (ε : Type) where
  | error (e : ε)
  | cycle
deriving DecidableEq, Inhabited

namespace Failure

def map {ε ε' : Type} (f : ε → ε') : Failure ε → Failure ε'
  | error e => error (f e)
  | cycle => cycle

end Failure

/-- The marks of all computations, and a state that the computations share. -/
structure Context {ν : Type} (family : Family ν) (σ : Type) where
  marks : (name : ν) → Mark (family.Value name)
  state : σ

variable {ν σ : Type} {family : Family ν}

namespace Context

/-- The context in which nothing has been requested. -/
def start (state : σ) : Context family σ := ⟨fun _ => .idle, state⟩

def setMark [DecidableEq ν] (context : Context family σ) (name : ν) (mark : Mark (family.Value name)) :
    Context family σ :=
  { context with marks := fun other => if h : other = name then h ▸ mark else context.marks other }

end Context

/-- A computation in a context that yields an `α`, fails with an `ε`, or runs into a cycle. -/
abbrev Action (family : Family ν) (σ ε α : Type) : Type := ExceptT (Failure ε) (StateM (Context family σ)) α

/-- What a request of each name yields. -/
abbrev Requests (family : Family ν) (σ : Type) : Type :=
  (name : ν) → Action family σ (family.Error name) (family.Value name)

/-- Changes the errors of an action. -/
def Action.mapError {ε ε' α : Type} (f : ε → ε') (action : Action family σ ε α) : Action family σ ε' α :=
  ExceptT.mk ((Except.mapError (Failure.map f)) <$> action.run)

/-- Changes the shared state. -/
def update {ε : Type} (f : σ → σ) : Action family σ ε Unit :=
  modify fun context => { context with state := f context.state }

/-- Requests a computation at a given depth: the number of computations that may still be nested into each other. -/
def requestAt [DecidableEq ν] (compute : Requests family σ → Requests family σ) : Nat → Requests family σ
  | 0, _ => throw .cycle
  | depth + 1, name => ExceptT.mk fun context =>
    match context.marks name with
    | .finished value => (.ok value, context)
    | .running => (.error .cycle, context)
    | .idle =>
      match (compute (requestAt compute depth) name).run (context.setMark name .running) with
      | (.ok value, context) => (.ok value, context.setMark name (.finished value))
      | (.error (.error e), context) => (.error (.error e), context.setMark name .idle)
      | (.error .cycle, context) => (.error .cycle, context)

/-- Requests a computation. As each one that is nested into others is marked, no more can be nested than there are
names. -/
def request [DecidableEq ν] (compute : Requests family σ → Requests family σ) : Requests family σ :=
  requestAt compute family.names.length

end Query

end PredictiveParsing
