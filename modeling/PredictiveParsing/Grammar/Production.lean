import PredictiveParsing.Grammar.Vocabulary
import PredictiveParsing.Layout

/-! # Productions

A production rewrites its head to its right-hand side. A right-hand side is never empty: the epsilon production of a
head has the epsilon marker as its only symbol, and no other production holds that marker. -/

namespace PredictiveParsing

/-- A rule `head → symbols` under a number of its own. -/
structure Production where
  id : ProductionId
  head : Nonterminal
  symbols : List Symbol
deriving DecidableEq, Inhabited

namespace Production

/-- Whether the right-hand side is the epsilon marker. -/
def isEpsilon (p : Production) : Bool := p.symbols.head?.any Symbol.isEpsilon

/-- The symbols to which the head is rewritten. -/
def body (p : Production) : List Symbol := if p.isEpsilon then [] else p.symbols

/-- The nonterminals of the right-hand side in order. -/
def nonterminals (p : Production) : List Nonterminal := p.symbols.filterMap Symbol.nonterminal?

/-- Not empty, and with the epsilon marker only as the single symbol. -/
def WellFormed (p : Production) : Prop :=
  p.symbols = [.terminal .epsilon] ∨ (p.symbols ≠ [] ∧ ∀ symbol ∈ p.symbols, symbol ≠ .terminal .epsilon)

instance (p : Production) : Decidable p.WellFormed := by unfold WellFormed; infer_instance

/-- A production with one symbol on the right, inside a vocabulary. -/
def begin (v : Vocabulary) (id : ProductionId) (head : Nonterminal) (first : Symbol) :
    Except GrammarError Production := do
  let _ ← v.check (.nonterminal head)
  let first ← v.check first
  return ⟨id, head, [first]⟩

/-- The production with a further symbol on the right, inside a vocabulary. -/
def extend (v : Vocabulary) (p : Production) (symbol : Symbol) : Except GrammarError Production := do
  let symbol ← v.check symbol
  if p.isEpsilon then
    throw (.malformedProduction p.id .extendsEpsilon)
  if symbol.isEpsilon then
    throw (.malformedProduction p.id .epsilonNotAlone)
  return { p with symbols := p.symbols ++ [symbol] }

def text (p : Production) : String :=
  s!"{p.id.text}: {p.head.text} ->" ++ String.join (p.symbols.map fun symbol => " " ++ symbol.text)

/-- The text on one line if it fits, with breaks between symbols where it does not. -/
def toDoc (p : Production) : Doc :=
  .group (.text (p.id.text ++ ": " ++ p.head.text ++ " ->") ++
    (.softline ++ .joinWith .softline (p.symbols.map fun symbol => .text symbol.text)))

end Production

end PredictiveParsing
