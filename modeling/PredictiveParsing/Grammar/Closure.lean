import PredictiveParsing.Grammar.Basic
import PredictiveParsing.Log
import PredictiveParsing.Reachability

/-! # Closed grammars

A grammar is closed if the start symbol and every nonterminal of a right-hand side have productions. The check names
the first symbol that has none; of a closed grammar it reports the heads that cannot be reached from the start
symbol, which does no harm but is worth a warning. -/

namespace PredictiveParsing

open Std

namespace Grammar

/-- The start symbol and the nonterminals of all right-hand sides in order. -/
def referenced (g : Grammar) : List Nonterminal := g.start :: g.productions.flatMap Production.nonterminals

/-- The nonterminals to which each head is rewritten. -/
def edges (g : Grammar) : ExtTreeMap Nonterminal (List Nonterminal) :=
  .ofList (g.heads.map fun a => (a, (g.alternatives a).flatMap Production.nonterminals))

/-- The nonterminals that occur when the start symbol is rewritten. -/
def reachable (g : Grammar) : ExtTreeSet Nonterminal := Reachability.reachable g.edges (.ofList [g.start])

/-- The heads that cannot be reached, or the first symbol that has no productions. -/
def check (g : Grammar) : Except GrammarError (List Nonterminal) :=
  match g.referenced.find? (fun a => !g.defines a) with
  | some a => .error (.undefinedNonterminal a)
  | none => .ok (g.heads.filter (· ∉ g.reachable))

/-- The warnings that go with a successful check. -/
def warnings (g : Grammar) : List LogEntry :=
  match g.check with
  | .error _ => []
  | .ok unreachable =>
    unreachable.map fun a => ⟨.warning, s!"Nonterminal {a.text} is unreachable from {g.start.text}."⟩

end Grammar

end PredictiveParsing
