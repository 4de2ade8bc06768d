import PredictiveParsing.Proofs.Collections
import PredictiveParsing.Table

/-! # Renamings

A numbering gives terminals, nonterminals and productions new numbers. It acts on everything that is made of them: on
symbols and productions, on words and tables, and on errors. A renaming is a numbering that gives different ones
different numbers and leaves the two reserved terminals as they are. Words are compared and bounded by their terminals
one by one, so that a renaming keeps whatever is asked of them. -/

namespace PredictiveParsing

open Std

/-- New numbers for terminals, nonterminals and productions. -/
structure Numbering where
  terminal : Terminal → Terminal
  nonterminal : Nonterminal → Nonterminal
  production : ProductionId → ProductionId

namespace Numbering

variable (ν : Numbering)

def symbol : Symbol → Symbol
  | .terminal t => .terminal (ν.terminal t)
  | .nonterminal a => .nonterminal (ν.nonterminal a)

def rule (p : Production) : Production := ⟨ν.production p.id, ν.nonterminal p.head, p.symbols.map ν.symbol⟩

def word (w : Lookahead) : Lookahead := ⟨w.terminals.map ν.terminal⟩

def key (key : TableKey) : TableKey := ⟨ν.nonterminal key.nonterminal, ν.word key.word⟩

def grammarError : GrammarError → GrammarError
  | .invalidSymbol symbol terminals nonterminals => .invalidSymbol (ν.symbol symbol) terminals nonterminals
  | .malformedProduction id reason => .malformedProduction (ν.production id) reason
  | .duplicateProduction id => .duplicateProduction (ν.production id)
  | .undefinedNonterminal a => .undefinedNonterminal (ν.nonterminal a)
  | .leftRecursion a => .leftRecursion (ν.nonterminal a)
  | .invalidLookahead k => .invalidLookahead k

/-- What a computation comes to, where `f` renames its value. -/
def result {α β : Type} (f : α → β) : Except GrammarError α → Except GrammarError β
  | .ok a => .ok (f a)
  | .error e => .error (ν.grammarError e)

def tableError : TableError → TableError
  | .grammar e => .grammar (ν.grammarError e)
  | .unreachableProduction id => .unreachableProduction (ν.production id)
  | .conflict a word existing new =>
    .conflict (ν.nonterminal a) (ν.word word) (ν.production existing) (ν.production new)

def nonterminals (known : ExtTreeSet Nonterminal) : ExtTreeSet Nonterminal := image ν.nonterminal known

def words (words : ExtTreeSet Lookahead) : ExtTreeSet Lookahead := image ν.word words

def wordTable (table : LookaheadTable) : LookaheadTable := table.relabel ν.nonterminal ν.word

def firstSets (firsts : FirstSets) : FirstSets :=
  ⟨ν.wordTable firsts.table, relabel ν.production ν.word firsts.words⟩

def prediction (found : Prediction) : Prediction :=
  ⟨found.k, ν.nonterminals found.nullable, ν.firstSets found.firsts, ν.wordTable found.follows⟩

def table (table : Table) : Table := ⟨table.k, relabel ν.key ν.production table.entries⟩

/-- What the registration of claims comes to. -/
def tableResult : Except TableError Table → Except TableError Table
  | .ok filled => .ok (ν.table filled)
  | .error e => .error (ν.tableError e)

theorem tableResult_eq_ok_iff {filled : Except TableError Table} {renamed : Table} :
    ν.tableResult filled = .ok renamed ↔ ∃ table, filled = .ok table ∧ ν.table table = renamed := by
  cases filled <;> simp [tableResult]

theorem result_eq_ok_iff {α β : Type} {f : α → β} {found : Except GrammarError α} {b : β} :
    ν.result f found = .ok b ↔ ∃ a, found = .ok a ∧ f a = b := by
  cases found <;> simp [result]

theorem nonterminals_rule (p : Production) : (ν.rule p).nonterminals = p.nonterminals.map ν.nonterminal := by
  rw [Production.nonterminals, Production.nonterminals, rule, List.filterMap_map, List.map_filterMap]
  refine List.filterMap_congr fun symbol _ => ?_
  cases symbol <;> rfl

theorem word_empty : ν.word .empty = .empty := rfl

@[simp] theorem length_word (w : Lookahead) : (ν.word w).length = w.length := List.length_map _

@[simp] theorem isEmpty_word (w : Lookahead) : (ν.word w).isEmpty = w.isEmpty := List.isEmpty_map

end Numbering

/-- New numbers, different ones for different things, under which the reserved terminals stay as they are. -/
structure Renaming extends Numbering where
  terminal_injective : Function.Injective terminal
  nonterminal_injective : Function.Injective nonterminal
  production_injective : Function.Injective production
  terminal_epsilon : terminal .epsilon = .epsilon
  terminal_endMarker : terminal .endMarker = .endMarker

namespace Renaming

instance : Coe Renaming Numbering := ⟨toNumbering⟩

variable (ρ : Renaming)

theorem terminal_eq_epsilon_iff {t : Terminal} : ρ.terminal t = .epsilon ↔ t = .epsilon :=
  ⟨fun h => ρ.terminal_injective (h.trans ρ.terminal_epsilon.symm), fun h => h ▸ ρ.terminal_epsilon⟩

theorem terminal_eq_endMarker_iff {t : Terminal} : ρ.terminal t = .endMarker ↔ t = .endMarker :=
  ⟨fun h => ρ.terminal_injective (h.trans ρ.terminal_endMarker.symm), fun h => h ▸ ρ.terminal_endMarker⟩

@[simp] theorem isEpsilon_terminal (t : Terminal) : (ρ.terminal t).isEpsilon = t.isEpsilon := by
  rw [Bool.eq_iff_iff, Terminal.isEpsilon_iff, Terminal.isEpsilon_iff, ρ.terminal_eq_epsilon_iff]

@[simp] theorem isEnd_terminal (t : Terminal) : (ρ.terminal t).isEnd = t.isEnd := by
  rw [Bool.eq_iff_iff, Terminal.isEnd_iff, Terminal.isEnd_iff, ρ.terminal_eq_endMarker_iff]

@[simp] theorem isEpsilon_symbol (symbol : Symbol) : (ρ.symbol symbol).isEpsilon = symbol.isEpsilon := by
  cases symbol with
  | terminal t => exact ρ.isEpsilon_terminal t
  | nonterminal => rfl

@[simp] theorem isEpsilon_rule (p : Production) : (ρ.rule p).isEpsilon = p.isEpsilon := by
  unfold Production.isEpsilon Numbering.rule
  cases p.symbols with
  | nil => rfl
  | cons first => exact ρ.isEpsilon_symbol first

theorem word_injective : Function.Injective ρ.word := by
  intro u v h
  have hterminals := ρ.terminal_injective.list_map (congrArg Lookahead.terminals h)
  cases u
  cases v
  exact congrArg Lookahead.mk hterminals

theorem key_injective : Function.Injective ρ.key := by
  rintro ⟨a, u⟩ ⟨b, v⟩ h
  rw [TableKey.mk.injEq]
  exact ⟨ρ.nonterminal_injective (congrArg TableKey.nonterminal h), ρ.word_injective (congrArg TableKey.word h)⟩

theorem symbol_injective : Function.Injective ρ.symbol := by
  intro x y h
  cases x <;> cases y <;> simp only [Numbering.symbol, Symbol.terminal.injEq, Symbol.nonterminal.injEq, reduceCtorEq] at h
  · rw [ρ.terminal_injective h]
  · rw [ρ.nonterminal_injective h]

theorem rule_injective : Function.Injective ρ.rule := by
  rintro ⟨i, a, x⟩ ⟨j, b, y⟩ h
  rw [Production.mk.injEq]
  exact ⟨ρ.production_injective (congrArg Production.id h), ρ.nonterminal_injective (congrArg Production.head h),
    ρ.symbol_injective.list_map (congrArg Production.symbols h)⟩

/-! Words under a renaming. -/

@[simp] theorem isTerminated_word (w : Lookahead) : (ρ.word w).isTerminated = w.isTerminated := by
  rw [Lookahead.isTerminated, Lookahead.isTerminated, Numbering.word, List.getLast?_map, Option.any_map]
  congr 1
  funext t
  exact ρ.isEnd_terminal t

@[simp] theorem isComplete_word (w : Lookahead) (k : Nat) : (ρ.word w).isComplete k = w.isComplete k := by
  rw [Lookahead.isComplete, Lookahead.isComplete, ρ.length_word, isTerminated_word]

theorem push?_word (w : Lookahead) (t : Terminal) (k : Nat) :
    (ρ.word w).push? (ρ.terminal t) k = (w.push? t k).map ρ.word := by
  rw [Lookahead.push?, Lookahead.push?, isEpsilon_terminal, isComplete_word]
  split
  · rfl
  · simp [Numbering.word]

theorem concat_word (u v : Lookahead) (k : Nat) : (ρ.word u).concat (ρ.word v) k = ρ.word (u.concat v k) := by
  rw [Lookahead.concat, Lookahead.concat, isComplete_word, ρ.length_word]
  split
  · rfl
  · simp [Numbering.word]

theorem isPrefixOf_terminals (u v : List Terminal) :
    (u.map ρ.terminal).isPrefixOf (v.map ρ.terminal) = u.isPrefixOf v := by
  induction u generalizing v with
  | nil => rfl
  | cons t u ih =>
      cases v with
      | nil => rfl
      | cons s v => simp only [List.map_cons, List.isPrefixOf, ih, beq_eq_decide, ρ.terminal_injective.eq_iff]

theorem clean_terminals (v : List Terminal) :
    Lookahead.clean (v.map ρ.terminal) = (Lookahead.clean v).map ρ.terminal := by
  induction v with
  | nil => rfl
  | cons t v ih =>
      simp only [List.map_cons, Lookahead.clean, isEpsilon_terminal, isEnd_terminal]
      split
      · exact ih
      · split
        · rfl
        · rw [ih, List.map_cons]

theorem word_ofTerminals (v : List Terminal) : ρ.word (.ofTerminals v) = .ofTerminals (v.map ρ.terminal) :=
  congrArg Lookahead.mk (ρ.clean_terminals v).symm

end Renaming

end PredictiveParsing
