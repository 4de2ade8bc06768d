import PredictiveParsing.Nullable
import PredictiveParsing.Proofs.First.Reading

/-! # Closure of the nullable set

The set at which the sweeps settle is closed under the productions: a head all of whose symbols on the right are
nullable is nullable. So a string of symbols is nullable if it can be read to its end without putting anything out. -/

namespace PredictiveParsing

open Std

namespace Nullable

theorem all_append (known : ExtTreeSet Nonterminal) (x y : List Symbol) :
    all known (x ++ y) = (all known x && all known y) := List.all_append

theorem visit_unchanged {known : ExtTreeSet Nonterminal} {p : Production} (h : (visit known p).2 = .unchanged) :
    (visit known p).1 = known ∧ (all known p.symbols = true → p.head ∈ known) := by
  by_cases hvisit : p.head ∉ known ∧ all known p.symbols = true
  · rw [visit, if_pos hvisit] at h
    cases h
  · rw [visit, if_neg hvisit]
    refine ⟨rfl, fun hall => ?_⟩
    by_contra habsent
    exact hvisit ⟨habsent, hall⟩

end Nullable

namespace Grammar

variable {g : Grammar}

theorem head_mem_nullable {p : Production} (mem : p ∈ g.productions)
    (h : Nullable.all g.nullable p.symbols = true) : p.head ∈ g.nullable := by
  have hsettled : ∃ last, sweep Nullable.visit last g.productions = (g.nullable, .unchanged) := by
    unfold nullable
    exact exists_unchanged_settle ∅
  obtain ⟨last, hlast⟩ := hsettled
  have hsweep := unchanged_of_sweep (fun p _ known h => (Nullable.visit_unchanged h).1) (congrArg Prod.snd hlast)
  rw [hlast] at hsweep
  obtain ⟨rfl, hvisits⟩ := hsweep
  exact (Nullable.visit_unchanged (hvisits p mem)).2 h

/-- A string that is read to its end without output is nullable. -/
theorem all_nullable_of_reading (hg : g.WellFormed) {x : List Symbol} (h : First.Reading g x [] []) :
    Nullable.all g.nullable x = true := by
  generalize hv : ([] : List Terminal) = v at h
  generalize hz : ([] : List Symbol) = z at h
  induction h with
  | stop x =>
      rw [← hz]
      rfl
  | terminal => cases hv
  | epsilon _ ih => exact ih hv hz
  | @drop a x z v choice _ ih =>
      obtain ⟨p, hp, rfl, hepsilon⟩ := First.exists_epsilon_of_replacement? hg choice
      have hhead : p.head ∈ g.nullable := by
        refine head_mem_nullable hp ?_
        rw [(hg.wellFormed p hp).symbols_of_isEpsilon hepsilon]
        rfl
      rw [Nullable.all, List.all_cons, Bool.and_eq_true]
      exact ⟨hhead, ih hv hz⟩
  | @replace a p x z v choice _ ih =>
      obtain ⟨hp, rfl, _⟩ := First.mem_of_replacement? hg choice
      have hall := ih hv hz
      rw [Nullable.all_append, Bool.and_eq_true] at hall
      rw [Nullable.all, List.all_cons, Bool.and_eq_true]
      exact ⟨head_mem_nullable hp hall.1, hall.2⟩

end Grammar

end PredictiveParsing
