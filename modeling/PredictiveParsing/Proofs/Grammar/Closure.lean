import PredictiveParsing.Grammar.Closure
import PredictiveParsing.Proofs.Grammar.Invariant

/-! # Closed grammars

The check of a grammar succeeds exactly if the start symbol and every nonterminal on the right of a production have
productions. -/

namespace PredictiveParsing

namespace Production

variable {p : Production} {before after : List Symbol} {symbol other : Symbol}

theorem mem_nonterminals_iff {a : Nonterminal} : a ∈ p.nonterminals ↔ .nonterminal a ∈ p.symbols := by
  rw [nonterminals, List.mem_filterMap]
  constructor
  · rintro ⟨symbol, hsymbol, heq⟩
    cases symbol with
    | terminal => cases heq
    | nonterminal b =>
        obtain rfl : b = a := Option.some.inj heq
        exact hsymbol
  · intro ha
    exact ⟨_, ha, rfl⟩

theorem mem_symbols_of_occurs (occurs : p.symbols = before ++ symbol :: after) : symbol ∈ p.symbols := by
  rw [occurs]
  exact List.mem_append_right before List.mem_cons_self

theorem mem_symbols_of_mem_behind (occurs : p.symbols = before ++ symbol :: after) (mem : other ∈ after) :
    other ∈ p.symbols := by
  rw [occurs]
  exact List.mem_append_right before (List.mem_cons_of_mem _ mem)

end Production

namespace Grammar

variable {g : Grammar}

theorem mem_referenced_iff {a : Nonterminal} :
    a ∈ g.referenced ↔ a = g.start ∨ ∃ p ∈ g.productions, .nonterminal a ∈ p.symbols := by
  rw [referenced, List.mem_cons, List.mem_flatMap]
  simp only [Production.mem_nonterminals_iff]

/-- The start symbol and the nonterminals of all right-hand sides have productions. -/
def Closed (g : Grammar) : Prop := ∀ a ∈ g.referenced, g.defines a = true

theorem closed_iff_check : g.Closed ↔ ∃ unreachable, g.check = .ok unreachable := by
  unfold check
  split
  · rename_i a ha
    constructor
    · intro hclosed
      have habsent := List.find?_some ha
      simp [hclosed a (List.mem_of_find?_eq_some ha)] at habsent
    · rintro ⟨_, h⟩
      cases h
  · rename_i hnone
    rw [List.find?_eq_none] at hnone
    exact ⟨fun _ => ⟨_, rfl⟩, fun _ a ha => by simpa using hnone a ha⟩

/-- A check that succeeds reports the heads that the search has not found. -/
theorem eq_filter_of_check {unreachable : List Nonterminal} (h : g.check = .ok unreachable) :
    unreachable = g.heads.filter (· ∉ g.reachable) := by
  unfold check at h
  split at h
  · cases h
  · exact (Except.ok.inj h).symm

/-- The nonterminals on the right of a production of a closed grammar have productions. -/
theorem Closed.defines (h : g.Closed) {p : Production} (mem : p ∈ g.productions) {a : Nonterminal}
    (ha : .nonterminal a ∈ p.symbols) : g.defines a = true :=
  h a (mem_referenced_iff.mpr (Or.inr ⟨p, mem, ha⟩))

end Grammar

end PredictiveParsing
