import PredictiveParsing.Dump
import PredictiveParsing.Lookahead

/-! # The state of a parse

A run holds a stack of symbols, a window of terminals that come next and what the semantic action has built. The
window always has the same number of terminals; behind the last token it holds end markers. A token source is asked
until it gives the end marker, the epsilon marker or nothing, and never again after that. -/

namespace PredictiveParsing

/-- What a token source answers when it is asked for the first time, the second time, and so on. -/
abbrev TokenSource : Type := Nat → Option Terminal

/-- The source of given tokens that has nothing to give after the last one. -/
def TokenSource.ofList (tokens : List (Option Terminal)) : TokenSource := fun i => tokens[i]?.join

/-- Whether a parse goes on, has accepted its input, or has failed. -/
inductive Phase where
  | running
  | accepted
  | failed
deriving DecidableEq, Inhabited

namespace Phase

def text : Phase → String
  | running => "Running"
  | accepted => "Accepted"
  | failed => "Failed"

end Phase

/-- A parse whose semantic action builds a `τ`. The top of the stack comes first. -/
structure Run (τ : Type) where
  pulled : Nat
  sourceDone : Bool
  emptyToken : Bool
  window : List Terminal
  stack : List Symbol
  root : Option τ
  phase : Phase
deriving DecidableEq, Inhabited

namespace Run

variable {τ : Type}

/-- Asks for the next terminal, which is the end marker once the source has nothing more to give. -/
def pull (source : TokenSource) (run : Run τ) : Terminal × Run τ :=
  if run.sourceDone then (.endMarker, run)
  else
    let asked := { run with pulled := run.pulled + 1 }
    match source run.pulled with
    | none => (.endMarker, { asked with sourceDone := true })
    | some t =>
      if t.isEpsilon then (.endMarker, { asked with sourceDone := true, emptyToken := true })
      else if t.isEnd then (.endMarker, { asked with sourceDone := true })
      else (t, asked)

/-- Puts the next terminal behind the window. -/
def widen (source : TokenSource) (run : Run τ) : Run τ :=
  let (t, run) := run.pull source
  { run with window := run.window ++ [t] }

/-- Puts the next `n` terminals behind the window. -/
def fill (source : TokenSource) : Nat → Run τ → Run τ
  | 0, run => run
  | n + 1, run => fill source n (run.widen source)

/-- A run that has not looked at its source: the end marker below the start symbol. -/
def unread (start : Nonterminal) : Run τ :=
  ⟨0, false, false, [], [.nonterminal start, .terminal .endMarker], none, .running⟩

/-- A run with a window of `k` terminals. -/
def begin (start : Nonterminal) (k : Nat) (source : TokenSource) : Run τ := (unread start).fill source k

/-- Moves the window by one terminal. -/
def advance (source : TokenSource) (run : Run τ) : Run τ := { run with window := run.window.tail }.widen source

/-- The terminal that comes next. -/
def front (run : Run τ) : Terminal := run.window.head?.getD .endMarker

/-- The window up to its first end marker. -/
def lookahead (run : Run τ) : Lookahead := .ofTerminals run.window

/-- The stack from its bottom to its top. -/
def stackDump (stack : List Symbol) : Dump := .list (stack.reverse.map fun symbol => .atom symbol.text)

def dump (ofRoot : τ → Dump) (run : Run τ) : Dump :=
  .record "ParseRun" [("state", .atom run.phase.text), ("window", .list (run.window.map fun t => .atom t.text)),
    ("stack", stackDump run.stack), ("root", .option (run.root.map ofRoot))]

end Run

end PredictiveParsing
