import PredictiveParsing.Proofs.Agreement
import PredictiveParsing.Proofs.Table.Existence

/-! # Rearranged grammars

A grammar is rearranged by adding its productions in another order, where each nonterminal keeps the order of its
alternatives that are not epsilon productions. The two grammars agree on all nonterminals, so the nullable
nonterminals and the FIRST and FOLLOW sets stay as they are. -/

namespace PredictiveParsing

open Std

namespace Grammar

/-- The same productions in another order that keeps, for each nonterminal, the order of the alternatives that are not
epsilon productions. -/
structure Rearranges (g g' : Grammar) : Prop where
  vocabulary : g.vocabulary = g'.vocabulary
  start : g.start = g'.start
  productions : g.productions.Perm g'.productions
  alternatives : ∀ a, (g.alternatives a).filter (!·.isEpsilon) = (g'.alternatives a).filter (!·.isEpsilon)

namespace Rearranges

variable {g g' : Grammar} {k : Nat} {p : Production}

theorem symm (h : g.Rearranges g') : g'.Rearranges g :=
  ⟨h.vocabulary.symm, h.start.symm, h.productions.symm, fun a => (h.alternatives a).symm⟩

variable (h : g.Rearranges g')
include h

theorem mem_iff : p ∈ g.productions ↔ p ∈ g'.productions := h.productions.mem_iff

/-- The two grammars agree on all nonterminals. -/
theorem agreesOn : AgreesOn (fun _ => True) g g' where
  inherits _ _ _ _ _ := trivial
  mem_iff _ _ := h.mem_iff
  alternatives a _ := h.alternatives a

variable (hg : g.WellFormed) (hg' : g'.WellFormed)
include hg hg'

theorem nullable_eq : g.nullable = g'.nullable := by
  apply ExtTreeSet.ext_mem
  exact fun a => h.agreesOn.mem_nullable_iff hg hg' trivial

theorem closed (closed : g.Closed) : g'.Closed := by
  intro a ha
  rw [← h.agreesOn.defines_eq hg hg' trivial]
  apply closed
  simp only [mem_referenced_iff, h.start, h.mem_iff] at ha ⊢
  exact ha

theorem exists_prediction (hfound : ∃ found, g.prediction k = .ok found) : ∃ found, g'.prediction k = .ok found := by
  have hpos : 0 < k := by
    obtain ⟨found, hfound⟩ := hfound
    exact (Prediction.describes_of_prediction hfound).pos
  obtain ⟨hclosed, hloops⟩ := (exists_prediction_iff hg hpos).mp hfound
  apply (exists_prediction_iff hg' hpos).mpr
  refine ⟨h.closed hg hg' hclosed, fun p mem hloop => ?_⟩
  exact hloops p (h.mem_iff.mpr mem) (h.symm.agreesOn.loops hg' hg mem trivial hloop)

variable {firsts firsts' : FirstSets} (hfirsts : g.firstSets k = .ok firsts) (hfirsts' : g'.firstSets k = .ok firsts')
include hfirsts hfirsts'

theorem firsts_eq (a : Nonterminal) : firsts.get a = firsts'.get a :=
  h.agreesOn.firsts_eq hg hg' hfirsts hfirsts' trivial

theorem get_followSets_eq (a : Nonterminal) :
    (g.followSets k firsts g.nullable).get a = (g'.followSets k firsts' g'.nullable).get a := by
  apply ExtTreeSet.ext_mem
  intro w
  rw [mem_followSets_iff, mem_followSets_iff]
  exact ⟨h.agreesOn.follows hg hg' hfirsts hfirsts' h.start fun _ _ => trivial,
    h.symm.agreesOn.follows hg' hg hfirsts' hfirsts h.symm.start fun _ _ => trivial⟩

end Rearranges

end Grammar

end PredictiveParsing
