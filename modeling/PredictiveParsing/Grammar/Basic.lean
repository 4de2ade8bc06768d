import Std.Data.ExtTreeMap
import PredictiveParsing.Grammar.Production

/-! # Grammars

A grammar holds its productions in the order in which they were added, an index from production numbers to places in
that order, and for every head the places of its alternatives. Adding an alternative keeps the three in step. -/

namespace PredictiveParsing

open Std

/-- A vocabulary, a start symbol and the productions. -/
structure Grammar where
  vocabulary : Vocabulary
  start : Nonterminal
  arena : Array Production
  index : ExtTreeMap ProductionId Nat
  rules : ExtTreeMap Nonterminal (Array Nat)

namespace Grammar

/-- The grammar without productions. -/
def ofStart (v : Vocabulary) (start : Nonterminal) : Except GrammarError Grammar := do
  let _ ← v.check (.nonterminal start)
  return ⟨v, start, #[], ∅, ∅⟩

/-- The productions in the order in which they were added. -/
def productions (g : Grammar) : List Production := g.arena.toList

def size (g : Grammar) : Nat := g.arena.size

def isEmpty (g : Grammar) : Bool := g.arena.isEmpty

/-- The production with a given number. -/
def get? (g : Grammar) (id : ProductionId) : Option Production := g.index[id]?.bind (g.arena[·]?)

/-- The nonterminals that have productions, in ascending order. -/
def heads (g : Grammar) : List Nonterminal := g.rules.keys

/-- Whether a nonterminal has productions. -/
def defines (g : Grammar) (a : Nonterminal) : Bool := g.rules.contains a

/-- The productions of a nonterminal in the order in which they were added. -/
def alternatives (g : Grammar) (a : Nonterminal) : List Production :=
  (g.rules[a]?.getD #[]).toList.filterMap (g.arena[·]?)

/-- The productions of a nonterminal that has some. -/
def alternatives? (g : Grammar) (a : Nonterminal) : Except GrammarError (List Production) :=
  if g.defines a then .ok (g.alternatives a) else .error (.undefinedNonterminal a)

/-- Adds a production behind the alternatives of its head. -/
def insert (g : Grammar) (head : Nonterminal) (p : Production) : Except GrammarError Grammar :=
  if p.head ≠ head then
    .error (.malformedProduction p.id .headMismatch)
  else if p.id ∈ g.index then
    .error (.duplicateProduction p.id)
  else
    .ok { g with
      arena := g.arena.push p
      index := g.index.insert p.id g.arena.size
      rules := g.rules.insert head ((g.rules[head]?.getD #[]).push g.arena.size) }

/-- The start symbol, and below it the productions, those of a head together. -/
def toDoc (g : Grammar) : Doc :=
  .text "Start =" ++ (.text " " ++ (.text g.start.text ++ (.hardline ++
    .joinWith .hardline (g.heads.map fun a =>
      .joinWith .hardline ((g.alternatives a).map Production.toDoc)))))

def pretty (g : Grammar) : String := g.toDoc.render 80

theorem mem_heads {g : Grammar} {a : Nonterminal} : a ∈ g.heads ↔ g.defines a = true := by
  simp [heads, defines]

theorem alternatives?_eq_ok_iff {g : Grammar} {a : Nonterminal} {ps : List Production} :
    g.alternatives? a = .ok ps ↔ g.defines a = true ∧ ps = g.alternatives a := by
  unfold alternatives?
  split
  · rename_i h
    rw [Except.ok.injEq]
    exact ⟨fun heq => ⟨h, heq.symm⟩, fun hand => hand.2.symm⟩
  · rename_i h
    exact ⟨(nomatch ·), fun hand => absurd hand.1 h⟩

end Grammar

end PredictiveParsing
