import Std.Data.ExtTreeSet
import PredictiveParsing.Grammar.Basic
import PredictiveParsing.Iteration
import PredictiveParsing.Log

/-! # Nullable nonterminals

A nonterminal is nullable if it can be rewritten to the empty string. The productions are swept in order, each
putting its head into the set if every symbol on its right is nullable by then, until a sweep changes nothing. -/

namespace PredictiveParsing

open Std

namespace Nullable

/-- Whether a symbol is empty or known to be nullable. -/
def symbol (known : ExtTreeSet Nonterminal) : Symbol → Bool
  | .terminal t => t.isEpsilon
  | .nonterminal a => known.contains a

/-- Whether every symbol is empty or known to be nullable. -/
def all (known : ExtTreeSet Nonterminal) (symbols : List Symbol) : Bool := symbols.all (symbol known)

/-- Puts the head of a production into the set if its right-hand side is nullable. -/
def visit (known : ExtTreeSet Nonterminal) (p : Production) : ExtTreeSet Nonterminal × Change :=
  if p.head ∉ known ∧ all known p.symbols = true then (known.insert p.head, .changed) else (known, .unchanged)

/-- The productions whose head is not known to be nullable. -/
def remaining (productions : List Production) (known : ExtTreeSet Nonterminal) : List Production :=
  productions.filter fun p => p.head ∉ known

theorem length_remaining_visit_lt {productions : List Production} {p : Production} (mem : p ∈ productions)
    {known : ExtTreeSet Nonterminal} (h : (visit known p).2 = .changed) :
    (remaining productions (visit known p).1).length < (remaining productions known).length := by
  by_cases hvisit : p.head ∉ known ∧ all known p.symbols = true
  · rw [visit, if_pos hvisit]
    refine length_filter_lt (x := p) ?_ mem (by simpa using hvisit.1) (by simp)
    intro q _ hq
    simp only [ExtTreeSet.mem_insert, decide_eq_true_eq, not_or] at hq ⊢
    exact hq.2
  · rw [visit, if_neg hvisit] at h
    cases h

theorem length_remaining_visit_le {productions : List Production} {p : Production} (mem : p ∈ productions)
    (known : ExtTreeSet Nonterminal) :
    (remaining productions (visit known p).1).length ≤ (remaining productions known).length := by
  by_cases h : (visit known p).2 = .changed
  · exact Nat.le_of_lt (length_remaining_visit_lt mem h)
  · unfold visit at h ⊢
    split <;> simp_all

theorem length_remaining_sweep_lt {productions : List Production} {known : ExtTreeSet Nonterminal}
    (h : (sweep visit known productions).2 = .changed) :
    (remaining productions (sweep visit known productions).1).length < (remaining productions known).length :=
  @rank_sweep_lt _ _ visit (fun known => (remaining productions known).length) productions
    (fun _ mem => length_remaining_visit_le mem) (fun _ mem _ => length_remaining_visit_lt mem) known h

end Nullable

namespace Grammar

/-- The nonterminals that can be rewritten to the empty string. -/
def nullable (g : Grammar) : ExtTreeSet Nonterminal :=
  settle (sweep Nullable.visit · g.productions) (fun known => (Nullable.remaining g.productions known).length)
    (fun _ => Nullable.length_remaining_sweep_lt) ∅

end Grammar

namespace Nullable

def logEntries (known : ExtTreeSet Nonterminal) : List LogEntry :=
  [⟨.trace, "Nullable nonterminals: \x7b" ++ ", ".intercalate (known.toList.map Nonterminal.text) ++ "\x7d"⟩]

end Nullable

end PredictiveParsing
