import PredictiveParsing.Layout
import PredictiveParsing.Lookahead
import PredictiveParsing.MultiMap

/-! # Tables of lookahead words

FIRST and FOLLOW are tables that give every nonterminal a set of lookahead words. A table is laid out with one
nonterminal below the other, the words of a nonterminal on one line if they fit. -/

namespace PredictiveParsing

/-- A set of lookahead words for each nonterminal. -/
abbrev LookaheadTable : Type := MultiMap Nonterminal Lookahead

namespace LookaheadTable

/-- A nonterminal and its words in curly brackets. -/
def rowDoc (a : Nonterminal) (words : List Lookahead) : Doc :=
  .group (.text (a.text ++ " | \x7b") ++
    (.nest 2 (.line ++ .joinWith (.text "," ++ .line) (words.map fun w => .text w.text)) ++
      (.line ++ .text "\x7d")))

def toDoc (table : LookaheadTable) : Doc :=
  .joinWith .hardline (table.toList.map fun (a, words) => rowDoc a words)

end LookaheadTable

end PredictiveParsing
