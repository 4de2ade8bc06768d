import PredictiveParsing.Log
import PredictiveParsing.Parser.Error
import PredictiveParsing.Parser.Run
import PredictiveParsing.Table

/-! # Predictive parsing

A parser has a grammar, its predictive table and a semantic action that is called with every production it applies.
Each step of a run takes one symbol from the stack. A terminal has to come next in the input, a nonterminal is
replaced by the production that the table holds for the lookahead, and the end marker asks for the end of the input.
The run is accepted when nothing but end markers would be left. A run that fails stays failed, and an accepted one
stays accepted. -/

namespace PredictiveParsing

/-- What to do with the result so far when a production is applied. -/
abbrev SemanticAction (τ ε : Type) : Type := Option τ → ProductionId → Except ε (Option τ)

/-- The action that does nothing. -/
def SemanticAction.idle {τ ε : Type} : SemanticAction τ ε := fun root _ => .ok root

/-- Whether a parse goes on after a step. -/
inductive Status where
  | running
  | accepted
deriving DecidableEq, Inhabited

/-- A grammar with its predictive table and a semantic action. -/
structure Parser (τ ε : Type) where
  grammar : Grammar
  table : Table
  action : SemanticAction τ ε

namespace Parser

variable {τ ε : Type}

/-- The parser for a grammar with a lookahead of `k` terminals. -/
def ofGrammar (g : Grammar) (action : SemanticAction τ ε) (k : Nat) : Except TableError (Parser τ ε) := do
  return ⟨g, ← g.table k, action⟩

def k (parser : Parser τ ε) : Nat := parser.table.k

/-- The run before its first step. -/
def start (parser : Parser τ ε) (source : TokenSource) : Run τ := .begin parser.grammar.start parser.k source

/-- What a step leads to. -/
abbrev Outcome (τ ε : Type) : Type := Run τ × Except (ParseError ε) Status

/-- A failed run keeps neither its stack nor what the action has built. -/
def fail (run : Run τ) (e : ParseError ε) : Outcome τ ε :=
  ({ run with stack := [], root := none, phase := .failed }, .error e)

/-- The production that the table predicts for a nonterminal. -/
def predict (parser : Parser τ ε) (run : Run τ) (a : Nonterminal) : Option Production :=
  (parser.table.lookup a run.lookahead).bind parser.grammar.get?

/-- What happens when an end marker has been taken from the stack. -/
def stepEnd (run : Run τ) : Outcome τ ε :=
  if !run.front.isEnd then fail run (.trailingInput run.lookahead)
  else if run.stack.all Symbol.isEnd then ({ run with stack := [], phase := .accepted }, .ok .accepted)
  else (run, .ok .running)

/-- What happens when another terminal has been taken from the stack. -/
def stepTerminal (source : TokenSource) (run : Run τ) (t : Terminal) : Outcome τ ε :=
  if t = run.front then (run.advance source, .ok .running)
  else fail run (.unexpectedToken (.terminal t) run.lookahead)

/-- What happens when a nonterminal has been taken from the stack. -/
def stepNonterminal (parser : Parser τ ε) (run : Run τ) (a : Nonterminal) : Outcome τ ε :=
  match parser.predict run a with
  | none => fail run (.unexpectedToken (.nonterminal a) run.lookahead)
  | some p =>
    match parser.action run.root p.id with
    | .error e => fail run (.actionFailed p.id e)
    | .ok root => ({ run with root, stack := p.body ++ run.stack }, .ok .running)

/-- Takes a symbol from the stack and acts on it. -/
def step (parser : Parser τ ε) (source : TokenSource) (run : Run τ) : Outcome τ ε :=
  match run.phase with
  | .accepted => (run, .ok .accepted)
  | .failed => (run, .error .halted)
  | .running =>
    if run.emptyToken then fail run .emptyToken
    else
      match run.stack with
      | [] => ({ run with phase := .accepted }, .ok .accepted)
      | .terminal t :: rest =>
        if t.isEnd then stepEnd { run with stack := rest } else stepTerminal source { run with stack := rest } t
      | .nonterminal a :: rest => parser.stepNonterminal { run with stack := rest } a

/-- Steps a run until it is accepted or fails, at most `limit` times. -/
def runWithin (parser : Parser τ ε) (source : TokenSource) :
    Nat → Run τ → Option (Run τ × Except (ParseError ε) (Option τ))
  | 0, _ => none
  | limit + 1, run =>
    match parser.step source run with
    | (run, .ok .accepted) => some (run, .ok run.root)
    | (run, .error e) => some (run, .error e)
    | (run, .ok .running) => parser.runWithin source limit run

/-- What the action has built when all tokens have been parsed, or why they cannot be, if at most `limit` steps are
needed. -/
def parseWithin (parser : Parser τ ε) (source : TokenSource) (limit : Nat) :
    Option (Run τ × Except (ParseError ε) (Option τ)) :=
  parser.runWithin source limit (parser.start source)

/-- What a failing step reports. -/
def failureEntry (e : ParseError ε) : LogEntry := ⟨.trace, "Parse failed: " ++ e.message⟩

/-- What a step reports. -/
def stepLog (parser : Parser τ ε) (source : TokenSource) (run : Run τ) : List LogEntry :=
  match run.phase, run.emptyToken, run.stack with
  | .running, true, _ => [failureEntry (.emptyToken : ParseError ε)]
  | .running, false, top :: rest =>
    let expansion := (top.nonterminal?.bind (parser.predict run)).toList
    ⟨.trace, s!"Step: top = {top.text}, lookahead = {run.lookahead.text}, " ++
        s!"stack = {(Run.stackDump rest).compact}"⟩ ::
      expansion.map (fun p => ⟨.trace, s!"Expanding with {p.text}"⟩) ++
      match (parser.step source run).2 with
      | .ok .running => []
      | .ok .accepted => [⟨.debug, "Input accepted."⟩]
      | .error e => [failureEntry e]
  | _, _, _ => []

/-- What the steps of a run report. -/
def runLog (parser : Parser τ ε) (source : TokenSource) : Nat → Run τ → List LogEntry
  | 0, _ => []
  | limit + 1, run =>
    parser.stepLog source run ++
      match parser.step source run with
      | (run, .ok .running) => parser.runLog source limit run
      | _ => []

end Parser

end PredictiveParsing
