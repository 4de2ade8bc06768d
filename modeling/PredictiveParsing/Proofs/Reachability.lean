import Mathlib.Logic.Relation
import PredictiveParsing.Reachability

/-! # What a search finds

A search finds exactly the nodes to which a path leads from an initial one. Each frontier is made of successors of the
one before, so paths lead to whatever is found. Conversely a node that has been seen has been expanded unless it is in
the frontier, and a round that finds nothing shows that the frontier leads to nothing new either; so what has been
found at the end has no other successors. -/

namespace PredictiveParsing

open Std

namespace Reachability

variable {α : Type} [Ord α] [TransOrd α] [LawfulEqOrd α] {edges : ExtTreeMap α (List α)}
  {frontier seen initial found : ExtTreeSet α} {node next : α}

/-- A path leads from one node to another. -/
def Leads (edges : ExtTreeMap α (List α)) : α → α → Prop :=
  Relation.ReflTransGen fun node next => next ∈ successors edges node

theorem rounds_of_isEmpty (h : (discover edges frontier seen).isEmpty = true) :
    rounds edges frontier seen = [frontier] := by
  rw [rounds]
  exact dif_pos h

theorem rounds_of_not_isEmpty (h : ¬(discover edges frontier seen).isEmpty = true) :
    rounds edges frontier seen =
      frontier :: rounds edges (discover edges frontier seen) (seen ∪ discover edges frontier seen) := by
  rw [rounds]
  exact dif_neg h

theorem frontier_mem_rounds : frontier ∈ rounds edges frontier seen := by
  by_cases h : (discover edges frontier seen).isEmpty = true
  · rw [rounds_of_isEmpty h]
    exact List.mem_cons_self
  · rw [rounds_of_not_isEmpty h]
    exact List.mem_cons_self

theorem exists_leads_of_mem_rounds (h : found ∈ rounds edges frontier seen) (mem : node ∈ found) :
    ∃ root, root ∈ frontier ∧ Leads edges root node := by
  fun_induction rounds edges frontier seen with
  | case1 frontier seen fresh hempty =>
      rw [List.mem_singleton.mp h] at mem
      exact ⟨node, mem, .refl⟩
  | case2 frontier seen fresh hsome ih =>
      rcases List.mem_cons.mp h with rfl | h
      · exact ⟨node, mem, .refl⟩
      · obtain ⟨middle, hmiddle, hleads⟩ := ih h
        obtain ⟨⟨root, hroot, hstep⟩, _⟩ := mem_discover.mp hmiddle
        exact ⟨root, hroot, .head hstep hleads⟩

/-- What has been seen before a search, or is in one of its frontiers. -/
def Finds (edges : ExtTreeMap α (List α)) (frontier seen : ExtTreeSet α) (node : α) : Prop :=
  node ∈ seen ∨ ∃ found ∈ rounds edges frontier seen, node ∈ found

/-- A round hands over to the search from what it has discovered. -/
theorem finds_discover_iff (within : ∀ node, node ∈ frontier → node ∈ seen)
    (hsome : ¬(discover edges frontier seen).isEmpty = true) :
    Finds edges (discover edges frontier seen) (seen ∪ discover edges frontier seen) node ↔
      Finds edges frontier seen node := by
  simp only [Finds, rounds_of_not_isEmpty hsome, ExtTreeSet.mem_union_iff, List.mem_cons, exists_eq_or_imp]
  constructor
  · rintro ((hseen | hfresh) | hlater)
    · exact Or.inl hseen
    · exact Or.inr (Or.inr ⟨_, frontier_mem_rounds, hfresh⟩)
    · exact Or.inr (Or.inr hlater)
  · rintro (hseen | hfrontier | hlater)
    · exact Or.inl (Or.inl hseen)
    · exact Or.inl (Or.inl (within node hfrontier))
    · exact Or.inr hlater

/-- Only nodes of the frontier have successors that have not been seen, and a round discovers these. -/
theorem mem_union_of_mem_successors
    (expanded : ∀ node, node ∈ seen → node ∉ frontier → ∀ next ∈ successors edges node, next ∈ seen)
    (mem : node ∈ seen) (step : next ∈ successors edges node) : next ∈ seen ∪ discover edges frontier seen := by
  rw [ExtTreeSet.mem_union_iff, mem_discover]
  by_cases hseen : next ∈ seen
  · exact Or.inl hseen
  · by_cases hfrontier : node ∈ frontier
    · exact Or.inr ⟨⟨node, hfrontier, step⟩, hseen⟩
    · exact Or.inl (expanded node mem hfrontier next step)

/-- A search that has expanded what it has seen, up to the frontier, finds the successors of all that it finds. -/
theorem Finds.of_mem_successors (within : ∀ node, node ∈ frontier → node ∈ seen)
    (expanded : ∀ node, node ∈ seen → node ∉ frontier → ∀ next ∈ successors edges node, next ∈ seen)
    (h : Finds edges frontier seen node) (step : next ∈ successors edges node) : Finds edges frontier seen next := by
  induction frontier, seen using rounds.induct edges with
  | case1 frontier seen fresh hempty =>
      have hseen : node ∈ seen := by
        rcases h with h | ⟨found, hfound, hmem⟩
        · exact h
        · rw [rounds_of_isEmpty hempty, List.mem_singleton] at hfound
          rw [hfound] at hmem
          exact within node hmem
      have hnext := mem_union_of_mem_successors expanded hseen step
      have hnone : discover edges frontier seen = ∅ := ExtTreeSet.isEmpty_iff.mp hempty
      rw [hnone, ExtTreeSet.mem_union_iff] at hnext
      exact Or.inl (hnext.resolve_right ExtTreeSet.not_mem_empty)
  | case2 frontier seen fresh hsome ih =>
      rw [← finds_discover_iff within hsome] at h ⊢
      apply ih ?_ ?_ h
      · intro node hnode
        exact ExtTreeSet.mem_union_iff.mpr (Or.inr hnode)
      · intro node hnode hold next hnext
        have hseen := (ExtTreeSet.mem_union_iff.mp hnode).resolve_right hold
        exact mem_union_of_mem_successors expanded hseen hnext

theorem mem_reachable_iff_finds : node ∈ reachable edges initial ↔ Finds edges initial initial node := by
  classical
  rw [reachable, visits, ExtTreeSet.mem_ofList, List.contains_iff_mem, List.mem_flatMap]
  simp only [ExtTreeSet.mem_toList]
  refine ⟨Or.inr, fun h => h.elim (fun hinitial => ?_) id⟩
  exact ⟨initial, frontier_mem_rounds, hinitial⟩

/-- A search finds the nodes to which a path leads from an initial one. -/
theorem mem_reachable_iff :
    node ∈ reachable edges initial ↔ ∃ root, root ∈ initial ∧ Leads edges root node := by
  rw [mem_reachable_iff_finds]
  constructor
  · rintro (hinitial | ⟨found, hfound, hmem⟩)
    · exact ⟨node, hinitial, .refl⟩
    · exact exists_leads_of_mem_rounds hfound hmem
  · rintro ⟨root, hroot, hleads⟩
    induction hleads with
    | refl => exact Or.inl hroot
    | tail _ step ih => exact ih.of_mem_successors (fun _ h => h) (fun _ h h' => absurd h h') step

end Reachability

end PredictiveParsing
