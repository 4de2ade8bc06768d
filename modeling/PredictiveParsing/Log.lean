/-! # Log entries

Analyses and parses report what they do as a list of entries, each with a severity and a text. A reader asks for
all entries that are at least as severe as a given level. -/

namespace PredictiveParsing

/-- The severities in use, the most severe first. -/
inductive Level where
  | warning
  | debug
  | trace
deriving DecidableEq, Inhabited

namespace Level

def rank : Level → Nat
  | warning => 0
  | debug => 1
  | trace => 2

/-- Whether an entry of level `entry` is wanted by a reader who asks for `threshold`. -/
def shownAt (entry threshold : Level) : Bool := decide (entry.rank ≤ threshold.rank)

end Level

/-- One line of a log. -/
structure LogEntry where
  level : Level
  text : String
deriving DecidableEq, Inhabited

namespace LogEntry

def select (threshold : Level) (entries : List LogEntry) : List LogEntry :=
  entries.filter fun entry => entry.level.shownAt threshold

end LogEntry

end PredictiveParsing
