import PredictiveParsing.Symbol

/-! # Errors of grammars

What can be wrong with a grammar while it is defined or analysed. An error is a cause; its wording is a function of
the cause. -/

namespace PredictiveParsing

/-- Why a production cannot be extended or added as it is. -/
inductive Malformation where
  | extendsEpsilon
  | epsilonNotAlone
  | headMismatch
deriving DecidableEq, Inhabited

namespace Malformation

def message : Malformation → String
  | extendsEpsilon => "an epsilon production cannot be extended"
  | epsilonNotAlone => "epsilon may only appear alone"
  | headMismatch => "head does not match the nonterminal it is added to"

end Malformation

/-- Errors raised while a grammar is defined or analysed. -/
inductive GrammarError where
  | invalidSymbol (symbol : Symbol) (terminals nonterminals : Nat)
  | malformedProduction (id : ProductionId) (reason : Malformation)
  | duplicateProduction (id : ProductionId)
  | undefinedNonterminal (a : Nonterminal)
  | leftRecursion (a : Nonterminal)
  | invalidLookahead (k : Nat)
deriving DecidableEq, Inhabited

namespace GrammarError

def message : GrammarError → String
  | invalidSymbol symbol terminals nonterminals =>
    s!"symbol {symbol.text} is outside the declared vocabulary " ++
      s!"({terminals} terminals, {nonterminals} nonterminals)"
  | malformedProduction id reason => s!"production {id.text} is malformed: {reason.message}"
  | duplicateProduction id => s!"production id {id.text} is already in use"
  | undefinedNonterminal a => s!"nonterminal {a.text} is referenced but has no productions"
  | leftRecursion a => s!"nonterminal {a.text} is left recursive"
  | invalidLookahead k => s!"lookahead must be at least one terminal, got {k}"

end GrammarError

end PredictiveParsing
