import PredictiveParsing.Grammar.Closure

/-! # Construction from rules

A grammar is described by rules, each a head with numbered alternatives. The builder works through the whole
description even after something has failed, and reports the first failure at the end. Assembling the same
description step by step stops at the first failure. An alternative without symbols is the epsilon production. -/

namespace PredictiveParsing

/-- A numbered right-hand side. -/
structure Alternative where
  id : ProductionId
  symbols : List Symbol
deriving DecidableEq, Inhabited

/-- Alternatives for one head. -/
structure Rule where
  head : Nonterminal
  alternatives : List Alternative
deriving DecidableEq, Inhabited

/-- A grammar under construction and the first error so far. -/
structure Builder where
  grammar : Grammar
  error? : Option GrammarError

namespace Builder

/-- Keeps an error unless there is one already. -/
def fail (b : Builder) (e : GrammarError) : Builder := { b with error? := b.error? <|> some e }

/-- A production under construction with one more symbol. It does not exist before its first good symbol, and a bad
symbol leaves it as it was. -/
def push (id : ProductionId) (head : Nonterminal) (state : Builder × Option Production) (symbol : Symbol) :
    Builder × Option Production :=
  let (b, pending) := state
  let attempt := match pending with
    | none => Production.begin b.grammar.vocabulary id head symbol
    | some p => p.extend b.grammar.vocabulary symbol
  match attempt with
  | .ok p => (b, some p)
  | .error e => (b.fail e, pending)

/-- The epsilon production stands in for a production without symbols, unless something has failed. -/
def complete (id : ProductionId) (head : Nonterminal) (state : Builder × Option Production) :
    Builder × Option Production :=
  match state with
  | (b, some p) => (b, some p)
  | (b, none) => if b.error?.isSome then (b, none) else push id head (b, none) (.terminal .epsilon)

def add (b : Builder) (head : Nonterminal) (alternative : Alternative) : Builder :=
  match complete alternative.id head (alternative.symbols.foldl (push alternative.id head) (b, none)) with
  | (b, none) => b
  | (b, some p) =>
    match b.grammar.insert head p with
    | .ok g => { b with grammar := g }
    | .error e => b.fail e

def addRule (b : Builder) (rule : Rule) : Builder := rule.alternatives.foldl (add · rule.head ·) b

/-- The grammar, if nothing has failed and it is closed. -/
def finish (b : Builder) : Except GrammarError Grammar :=
  match b.error? with
  | some e => .error e
  | none => do
    let _ ← b.grammar.check
    return b.grammar

end Builder

namespace Grammar

/-- The closed grammar that rules describe, or the first error of the description. -/
def build (v : Vocabulary) (start : Nonterminal) (rules : List Rule) : Except GrammarError Grammar := do
  let g ← ofStart v start
  (rules.foldl Builder.addRule ⟨g, none⟩).finish

/-- The production that an alternative describes. -/
def produce (v : Vocabulary) (head : Nonterminal) (alternative : Alternative) : Except GrammarError Production :=
  match alternative.symbols with
  | [] => Production.begin v alternative.id head (.terminal .epsilon)
  | first :: rest => do rest.foldlM (Production.extend v) (← Production.begin v alternative.id head first)

/-- The grammar with the alternatives of a rule. -/
def insertRule (g : Grammar) (rule : Rule) : Except GrammarError Grammar :=
  rule.alternatives.foldlM
    (fun g alternative => do g.insert rule.head (← produce g.vocabulary rule.head alternative)) g

/-- The closed grammar that rules describe, put together one production after the other. -/
def assemble (v : Vocabulary) (start : Nonterminal) (rules : List Rule) : Except GrammarError Grammar := do
  let g ← rules.foldlM insertRule (← ofStart v start)
  let _ ← g.check
  return g

end Grammar

end PredictiveParsing
