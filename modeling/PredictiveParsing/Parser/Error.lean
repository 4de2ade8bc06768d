import PredictiveParsing.Lookahead

/-! # Errors of a parse

Why a parse ends without accepting its input. The error of a semantic action is kept inside the error of the parse;
its wording is up to the action. -/

namespace PredictiveParsing

/-- Errors of a parse whose semantic action fails with an `ε`. -/
inductive ParseError (ε : Type) where
  | unexpectedToken (expected : Symbol) (lookahead : Lookahead)
  | trailingInput (lookahead : Lookahead)
  | actionFailed (id : ProductionId) (source : ε)
  | emptyToken
  | halted
deriving DecidableEq, Inhabited

namespace ParseError

variable {ε : Type}

def message : ParseError ε → String
  | unexpectedToken expected lookahead => s!"expected {expected.text}, but the lookahead is {lookahead.text}"
  | trailingInput lookahead => s!"input continues after the start symbol was derived: {lookahead.text}"
  | actionFailed id _ => s!"semantic action for {id.text} failed"
  | emptyToken => "the token source produced the epsilon marker"
  | halted => "the parse has already failed"

end ParseError

end PredictiveParsing
