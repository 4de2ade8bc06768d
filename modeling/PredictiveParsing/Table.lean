import PredictiveParsing.Dump
import PredictiveParsing.Follow
import PredictiveParsing.Grammar.Closure

/-! # Predictive tables

A predictive table says by which production a nonterminal is to be rewritten when a lookahead word comes next. Every
production claims words: an epsilon production those that follow its head, any other production the FIRST words of
its head that its right-hand side can generate, with the words that follow the head in place of the empty word. The
claims are registered in the order of the productions. Of an epsilon production and another one the other gets the
word; two claims of a kind are a conflict. -/

namespace PredictiveParsing

open Std

/-- What can go wrong while a table is built. -/
inductive TableError where
  | grammar (e : GrammarError)
  | unreachableProduction (id : ProductionId)
  | conflict (a : Nonterminal) (word : Lookahead) (existing new : ProductionId)
deriving DecidableEq, Inhabited

namespace TableError

def message : TableError → String
  | grammar e => e.message
  | unreachableProduction id => s!"production {id.text} does not match any lookahead sequence"
  | conflict a word existing new =>
    s!"productions {existing.text} and {new.text} of {a.text} both claim lookahead {word.text}"

end TableError

/-- A nonterminal and the lookahead word that comes next. -/
structure TableKey where
  nonterminal : Nonterminal
  word : Lookahead
deriving DecidableEq, Inhabited

namespace TableKey

/-- By nonterminal, then by word. -/
instance : Ord TableKey := ⟨compareLex (compareOn nonterminal) (compareOn word)⟩

instance : TransOrd TableKey := inferInstanceAs (TransCmp (compareLex (compareOn nonterminal) (compareOn word)))

instance : LawfulEqOrd TableKey where
  eq_of_compare {x y} h := by
    obtain ⟨hnonterminal, hword⟩ := Ordering.then_eq_eq.mp h
    have hnonterminal : x.nonterminal = y.nonterminal := LawfulEqOrd.eq_of_compare hnonterminal
    have hword : x.word = y.word := LawfulEqOrd.eq_of_compare hword
    cases x
    cases y
    simp_all

end TableKey

/-- The productions by nonterminal and lookahead word, for a lookahead of at most `k` terminals. -/
structure Table where
  k : Nat
  entries : ExtTreeMap TableKey ProductionId

namespace Table

instance : Inhabited Table := ⟨⟨0, ∅⟩⟩

instance : DecidableEq Table := fun
  | ⟨k, m⟩, ⟨k', m'⟩ =>
    decidable_of_iff (k = k' ∧ m = m') ⟨fun ⟨h, h'⟩ => by rw [h, h'], fun h => by cases h; simp⟩

/-- The production for exactly a given word. -/
def get? (table : Table) (a : Nonterminal) (word : Lookahead) : Option ProductionId :=
  table.entries[TableKey.mk a word]?

/-- The production for the longest of the first one to `n` terminals of a word. -/
def lookupUpTo (table : Table) (a : Nonterminal) (word : Lookahead) : Nat → Option ProductionId
  | 0 => none
  | n + 1 => (table.get? a (word.truncate (n + 1))).or (table.lookupUpTo a word n)

/-- The production for the longest beginning of a window that has one. -/
def lookup (table : Table) (a : Nonterminal) (window : Lookahead) : Option ProductionId :=
  table.lookupUpTo a window window.length

def size (table : Table) : Nat := table.entries.size

def isEmpty (table : Table) : Bool := table.entries.isEmpty

/-- The entries by nonterminal and word. -/
def toList (table : Table) : List (TableKey × ProductionId) := table.entries.toList

def toDoc (table : Table) : Doc :=
  .joinWith .hardline (table.toList.map fun (key, id) =>
    .text s!"{key.nonterminal.text}: {key.word.text} -> {id.text}")

def pretty (table : Table) : String := table.toDoc.render 80

def dump (table : Table) : Dump :=
  .record "PredictiveTable" [("k", .atom (toString table.k)),
    ("entries", .map (table.toList.map fun (key, id) =>
      (Dump.quoted s!"{key.nonterminal.text} {key.word.text}", .atom id.text)))]

end Table

/-- What the analyses of a grammar have found for a lookahead of at most `k` terminals. -/
structure Prediction where
  k : Nat
  nullable : ExtTreeSet Nonterminal
  firsts : FirstSets
  follows : LookaheadTable

namespace Prediction

/-- Whether a string of symbols can generate a word out of the FIRST words of its nonterminals. A word that is not
complete has to be generated exactly. -/
def generates (found : Prediction) (complete : Bool) : List Symbol → List Terminal → Bool
  | symbols, [] => complete || Nullable.all found.nullable symbols
  | [], _ :: _ => false
  | .terminal t :: rest, target :: later =>
    if t.isEpsilon then found.generates complete rest (target :: later)
    else t == target && found.generates complete rest later
  | .nonterminal a :: rest, target :: later =>
    (found.nullable.contains a && found.generates complete rest (target :: later)) ||
      (found.firsts.get a).toList.any fun word =>
        !word.isEmpty &&
          if word.length < (target :: later).length then
            word.isPrefixOf (target :: later) &&
              found.generates complete rest ((target :: later).drop word.length)
          else
            (target :: later).isPrefixOf word.terminals &&
              (complete || (word.length == (target :: later).length && Nullable.all found.nullable rest))

/-- The FIRST words of its head that a production generates. -/
def generated (found : Prediction) (p : Production) : List Lookahead :=
  (found.firsts.get p.head).toList.filter fun word =>
    found.generates (word.isComplete found.k) p.symbols word.terminals

/-- Whether a production has a word at all. -/
def isReached (found : Prediction) (p : Production) : Bool := p.isEpsilon || !(found.generated p).isEmpty

/-- The words that a production claims, in the order in which they are registered. -/
def claims (found : Prediction) (p : Production) : List Lookahead :=
  if p.isEpsilon then (found.follows.get p.head).toList
  else
    (found.generated p).flatMap fun word =>
      if word.isEmpty then (found.follows.get p.head).toList.map (word.concat · found.k) else [word]

end Prediction

namespace Table

/-- Whether the production with a given number is an epsilon production of the grammar. -/
def isEpsilonId (g : Grammar) (id : ProductionId) : Bool := (g.get? id).any Production.isEpsilon

/-- The production that an epsilon production has to leave a word to. -/
def replaced? (g : Grammar) (p : Production) (table : Table) (word : Lookahead) : Option ProductionId :=
  (table.get? p.head word).filter fun existing => isEpsilonId g existing && !p.isEpsilon

/-- The table after a production has claimed a word. -/
def register (g : Grammar) (p : Production) (table : Table) (word : Lookahead) : Except TableError Table :=
  let claimed : Table := { table with entries := table.entries.insert ⟨p.head, word⟩ p.id }
  match table.get? p.head word with
  | none => .ok claimed
  | some existing =>
    match isEpsilonId g existing, p.isEpsilon with
    | true, false => .ok claimed
    | false, true => .ok table
    | _, _ => .error (.conflict p.head word existing p.id)

/-- The table after a production has claimed all its words. -/
def registerAll (g : Grammar) (found : Prediction) (table : Table) (p : Production) : Except TableError Table :=
  if found.isReached p then (found.claims p).foldlM (register g p) table else .error (.unreachableProduction p.id)

/-- The table that the productions of a grammar fill. -/
def fill (g : Grammar) (found : Prediction) : Except TableError Table :=
  g.productions.foldlM (registerAll g found) ⟨found.k, ∅⟩

/-- The words that go from an epsilon production to another one, as far as the claims can be registered. -/
def replacements (g : Grammar) : Table → List (Production × Lookahead) → List LogEntry
  | _, [] => []
  | table, (p, word) :: rest =>
    match register g p table word with
    | .error _ => []
    | .ok next =>
      match replaced? g p table word with
      | none => replacements g next rest
      | some existing =>
        ⟨.trace, s!"{p.id.text} replaces {existing.text} at {p.head.text} {word.text}"⟩ ::
          replacements g next rest

def logEntries (g : Grammar) (found : Prediction) : List LogEntry :=
  replacements g ⟨found.k, ∅⟩
      ((g.productions.takeWhile found.isReached).flatMap fun p => (found.claims p).map (p, ·)) ++
    match fill g found with
    | .error _ => []
    | .ok table => [⟨.debug, s!"Predictive table (k = {found.k}):\n" ++ table.pretty⟩]

end Table

namespace Grammar

/-- Whether the grammar can be analysed with a lookahead of `k` terminals: `k` is not zero, and the grammar is
closed. -/
def admits (g : Grammar) (k : Nat) : Except GrammarError Unit := do
  if k = 0 then
    throw (.invalidLookahead k)
  let _ ← g.check

/-- The analyses that a table is built from. -/
def prediction (g : Grammar) (k : Nat) : Except GrammarError Prediction := do
  g.admits k
  let firsts ← g.firstSets k
  let nullable := g.nullable
  return ⟨k, nullable, firsts, g.followSets k firsts nullable⟩

/-- The predictive table of a grammar for a lookahead of at most `k` terminals. -/
def table (g : Grammar) (k : Nat) : Except TableError Table := do
  let found ← (g.prediction k).mapError .grammar
  Table.fill g found

end Grammar

end PredictiveParsing
