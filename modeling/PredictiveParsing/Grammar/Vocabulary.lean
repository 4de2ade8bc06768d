import PredictiveParsing.Grammar.Error

/-! # Vocabularies

A vocabulary declares how many terminals and nonterminals there are; the symbols of a grammar have numbers below
these counts. The two reserved terminals and one nonterminal are always needed. -/

namespace PredictiveParsing

/-- The numbers of terminals, the reserved ones included, and of nonterminals. -/
structure Vocabulary where
  terminals : Nat
  nonterminals : Nat
deriving DecidableEq, Inhabited

namespace Vocabulary

def contains (v : Vocabulary) : Symbol → Bool
  | .terminal t => decide (t.id < v.terminals)
  | .nonterminal a => decide (a.id < v.nonterminals)

def check (v : Vocabulary) (symbol : Symbol) : Except GrammarError Symbol :=
  if v.contains symbol then .ok symbol else .error (.invalidSymbol symbol v.terminals v.nonterminals)

/-- A vocabulary that has the reserved terminals and a nonterminal. -/
def declare (terminals nonterminals : Nat) : Except GrammarError Vocabulary := do
  let v : Vocabulary := ⟨terminals, nonterminals⟩
  let _ ← v.check (.terminal .endMarker)
  let _ ← v.check (.nonterminal ⟨0⟩)
  return v

theorem check_eq_ok_iff {v : Vocabulary} {symbol result : Symbol} :
    v.check symbol = .ok result ↔ v.contains symbol = true ∧ result = symbol := by
  unfold check
  split
  · rename_i h
    rw [Except.ok.injEq]
    exact ⟨fun heq => ⟨h, heq.symm⟩, fun hand => hand.2.symm⟩
  · rename_i h
    exact ⟨(nomatch ·), fun hand => absurd hand.1 h⟩

end Vocabulary

end PredictiveParsing
