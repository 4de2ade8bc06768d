import PredictiveParsing.Proofs.Grammar.Closure
import PredictiveParsing.Proofs.Renaming.Basic

/-! # Renamed grammars

A renamed grammar has the renamed productions in the same order. Its nonterminals have the renamed alternatives in
the same order, so that the same alternative replaces a nonterminal, and it can be analysed just if the other one
can. Only the order of the nonterminals themselves changes. -/

namespace PredictiveParsing

open Std

namespace Grammar

/-- The same productions under other numbers, in the same order. -/
structure Renames (ν : Numbering) (g g' : Grammar) : Prop where
  start : g'.start = ν.nonterminal g.start
  productions : g'.productions = g.productions.map ν.rule

namespace Renames

variable {ρ : Renaming} {g g' : Grammar} (h : g.Renames ρ g')
include h

theorem mem_iff {q : Production} : q ∈ g'.productions ↔ ∃ p ∈ g.productions, ρ.rule p = q := by
  rw [h.productions, List.mem_map]

theorem rule_mem_iff {p : Production} : ρ.rule p ∈ g'.productions ↔ p ∈ g.productions := by
  rw [h.productions, List.mem_map_of_injective ρ.rule_injective]

theorem referenced_eq : g'.referenced = g.referenced.map ρ.nonterminal := by
  rw [referenced, referenced, h.start, h.productions, List.map_cons, List.map_flatMap, List.flatMap_map]
  simp only [ρ.nonterminals_rule]

variable (hg : g.WellFormed) (hg' : g'.WellFormed)
include hg hg'

theorem alternatives_eq (a : Nonterminal) : g'.alternatives (ρ.nonterminal a) = (g.alternatives a).map ρ.rule := by
  rw [hg.alternatives_eq_filter, hg'.alternatives_eq_filter, h.productions, List.filter_map]
  congr 1
  refine List.filter_congr fun p _ => ?_
  simp only [Numbering.rule, Function.comp_apply, ρ.nonterminal_injective.eq_iff]

theorem defines_iff {b : Nonterminal} : g'.defines b = true ↔ ∃ a, g.defines a = true ∧ ρ.nonterminal a = b := by
  rw [hg'.defines_iff]
  simp only [h.mem_iff, hg.defines_iff]
  constructor
  · rintro ⟨_, ⟨p, mem, rfl⟩, rfl⟩
    exact ⟨p.head, ⟨p, mem, rfl⟩, rfl⟩
  · rintro ⟨_, ⟨p, mem, rfl⟩, rfl⟩
    exact ⟨ρ.rule p, ⟨p, mem, rfl⟩, rfl⟩

theorem defines_eq (a : Nonterminal) : g'.defines (ρ.nonterminal a) = g.defines a := by
  rw [Bool.eq_iff_iff, h.defines_iff hg hg']
  exact ⟨fun ⟨_, hdefines, heq⟩ => ρ.nonterminal_injective heq ▸ hdefines, fun hdefines => ⟨a, hdefines, rfl⟩⟩

theorem get?_eq (id : ProductionId) : g'.get? (ρ.production id) = (g.get? id).map ρ.rule := by
  apply Option.ext
  intro q
  rw [hg'.get?_eq_some_iff, h.mem_iff, Option.map_eq_some_iff]
  simp only [hg.get?_eq_some_iff]
  constructor
  · rintro ⟨⟨p, mem, rfl⟩, hid⟩
    exact ⟨p, ⟨mem, ρ.production_injective hid⟩, rfl⟩
  · rintro ⟨p, ⟨mem, rfl⟩, rfl⟩
    exact ⟨⟨p, mem, rfl⟩, rfl⟩

theorem isEpsilonId_eq (id : ProductionId) :
    Table.isEpsilonId g' (ρ.production id) = Table.isEpsilonId g id := by
  rw [Table.isEpsilonId, Table.isEpsilonId, h.get?_eq hg hg', Option.any_map]
  congr 1
  funext p
  exact ρ.isEpsilon_rule p

/-- A nonterminal is replaced by the renamed alternative. -/
theorem replacement?_eq (a : Nonterminal) :
    First.replacement? g' (ρ.nonterminal a) = ρ.result (Option.map ρ.rule) (First.replacement? g a) := by
  rw [First.replacement?, First.replacement?, alternatives?, alternatives?, h.defines_eq hg hg']
  split
  · have hfirst : (g'.alternatives (ρ.nonterminal a)).find? (fun p => !p.isEpsilon) =
        ((g.alternatives a).find? fun p => !p.isEpsilon).map ρ.rule := by
      rw [h.alternatives_eq hg hg', List.find?_map]
      congr 2
      funext p
      exact congrArg _ (ρ.isEpsilon_rule p)
    exact congrArg Except.ok hfirst
  · rfl

theorem admits_eq (k : Nat) : g'.admits k = ρ.result id (g.admits k) := by
  rw [admits, admits]
  by_cases hzero : k = 0
  · rw [if_pos hzero, if_pos hzero]
    rfl
  · rw [if_neg hzero, if_neg hzero]
    have hfind : g'.referenced.find? (fun b => !g'.defines b) =
        (g.referenced.find? fun a => !g.defines a).map ρ.nonterminal := by
      rw [h.referenced_eq, List.find?_map]
      congr 2
      funext a
      exact congrArg _ (h.defines_eq hg hg' a)
    unfold check
    rw [hfind]
    cases g.referenced.find? fun a => !g.defines a <;> rfl

end Renames

end Grammar

end PredictiveParsing
