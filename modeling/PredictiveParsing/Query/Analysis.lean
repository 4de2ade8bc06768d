import PredictiveParsing.Query.Context
import PredictiveParsing.Table

/-! # Analyses on request

The analyses of a grammar as a family of computations. FOLLOW requests FIRST and the nullable nonterminals, and the
predictive table requests all three. Each analysis reports what it does. -/

namespace PredictiveParsing

open Std

/-- The analyses of a grammar. -/
inductive Analysis where
  | nullable
  | firsts
  | follows
  | table
deriving DecidableEq, Inhabited

namespace Analysis

@[reducible] def Value : Analysis → Type
  | nullable => ExtTreeSet Nonterminal
  | firsts => FirstSets
  | follows => LookaheadTable
  | table => Table

@[reducible] def Error : Analysis → Type
  | nullable => GrammarError
  | firsts => GrammarError
  | follows => GrammarError
  | table => TableError

/-- The analyses as a family. -/
@[reducible] def family : Query.Family Analysis := ⟨[nullable, firsts, follows, table], Value, Error⟩

variable {ν σ : Type} {others : Query.Family ν}

/-- Runs an analysis, given how to request the analyses it needs and how to report. -/
def compute (g : Grammar) (k : Nat) (report : List LogEntry → σ → σ)
    (request : (a : Analysis) → Query.Action others σ a.Error a.Value) :
    (a : Analysis) → Query.Action others σ a.Error a.Value
  | .nullable => do
    let known := g.nullable
    Query.update (report (Nullable.logEntries known))
    return known
  | .firsts => do
    Query.update (report (First.logEntries g k))
    match g.firstSets k with
    | .ok first => return first
    | .error e => throw (.error e)
  | .follows => do
    let first ← request .firsts
    let known ← request .nullable
    let follow := g.followSets k first known
    Query.update (report (Follow.logEntries k follow))
    return follow
  | .table => do
    let first ← (request .firsts).mapError .grammar
    let follow ← (request .follows).mapError .grammar
    let known ← (request .nullable).mapError .grammar
    let prediction : Prediction := ⟨k, known, first, follow⟩
    Query.update (report (Table.logEntries g prediction))
    match Table.fill g prediction with
    | .ok filled => return filled
    | .error e => throw (.error e)

/-- Requests an analysis in a context whose state is the log. -/
def request (g : Grammar) (k : Nat) (a : Analysis) : Query.Action family (List LogEntry) a.Error a.Value :=
  Query.request (compute g k fun entries log => log ++ entries) a

end Analysis

namespace Grammar

/-- What is reported while the predictive table of a grammar is built. -/
def tableLog (g : Grammar) (k : Nat) : List LogEntry :=
  match g.admits k with
  | .error _ => []
  | .ok _ => g.warnings ++ ((Analysis.request g k .table).run (.start [])).2.state

end Grammar

end PredictiveParsing
