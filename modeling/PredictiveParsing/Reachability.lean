import Std.Data.ExtTreeMap
import Std.Data.ExtTreeSet
import PredictiveParsing.Iteration

/-! # Breadth-first search

The search of a finite graph proceeds in rounds. A round expands the nodes that the round before found, in ascending
order, and finds those of their successors that no earlier round has found. It ends when a round finds nothing. The
graph is given by the list of successors of each node; a node that is not listed has none. -/

namespace PredictiveParsing

open Std

namespace Reachability

variable {α : Type} [Ord α] [TransOrd α]

/-- The successors of a node. -/
def successors (edges : ExtTreeMap α (List α)) (node : α) : List α := edges[node]?.getD []

/-- All nodes to which an edge leads. -/
def targets (edges : ExtTreeMap α (List α)) : List α := edges.toList.flatMap Prod.snd

/-- The successors of a frontier that have not been seen. -/
def discover (edges : ExtTreeMap α (List α)) (frontier seen : ExtTreeSet α) : ExtTreeSet α :=
  .ofList ((frontier.toList.flatMap (successors edges)).filter (· ∉ seen))

theorem mem_targets_of_mem_successors [LawfulEqOrd α] {edges : ExtTreeMap α (List α)} {node next : α}
    (h : next ∈ successors edges node) : next ∈ targets edges := by
  unfold successors at h
  cases hget : edges[node]? with
  | none => simp [hget] at h
  | some list =>
      rw [hget, Option.getD_some] at h
      exact List.mem_flatMap.mpr ⟨(node, list), ExtTreeMap.mem_toList_iff_getElem?_eq_some.mpr hget, h⟩

theorem mem_discover [LawfulEqOrd α] {edges : ExtTreeMap α (List α)} {frontier seen : ExtTreeSet α} {next : α} :
    next ∈ discover edges frontier seen ↔ (∃ node ∈ frontier, next ∈ successors edges node) ∧ next ∉ seen := by
  classical simp [discover, ExtTreeSet.mem_ofList]

/-- The nodes that some edge leads to and no round has found yet. -/
def unseen (edges : ExtTreeMap α (List α)) (seen : ExtTreeSet α) : List α := (targets edges).filter (· ∉ seen)

theorem length_unseen_lt [LawfulEqOrd α] {edges : ExtTreeMap α (List α)} {frontier seen : ExtTreeSet α}
    (h : ¬ (discover edges frontier seen).isEmpty = true) :
    (unseen edges (seen ∪ discover edges frontier seen)).length < (unseen edges seen).length := by
  have hsome : ∃ next, next ∈ discover edges frontier seen := by
    refine Classical.byContradiction fun hnone => h ?_
    rw [ExtTreeSet.isEmpty_iff]
    exact ExtTreeSet.ext_mem fun next => by simpa using fun hnext => hnone ⟨next, hnext⟩
  obtain ⟨next, hnext⟩ := hsome
  obtain ⟨⟨node, _, hstep⟩, hfresh⟩ := mem_discover.mp hnext
  refine length_filter_lt (x := next) ?_ (mem_targets_of_mem_successors hstep) (by simpa using hfresh)
    (by simp [ExtTreeSet.mem_union_iff, hnext])
  intro other _ hother
  simp only [ExtTreeSet.mem_union_iff, not_or, decide_eq_true_eq] at hother
  simpa using hother.1

/-- The frontiers of the search from `frontier` on, where `seen` has been found so far. -/
def rounds [LawfulEqOrd α] (edges : ExtTreeMap α (List α)) (frontier seen : ExtTreeSet α) :
    List (ExtTreeSet α) :=
  let fresh := discover edges frontier seen
  if _found : fresh.isEmpty then [frontier] else frontier :: rounds edges fresh (seen ∪ fresh)
termination_by (unseen edges seen).length
decreasing_by exact length_unseen_lt _found

/-- The nodes in the order in which a search from `initial` expands them. -/
def visits [LawfulEqOrd α] (edges : ExtTreeMap α (List α)) (initial : ExtTreeSet α) : List α :=
  (rounds edges initial initial).flatMap ExtTreeSet.toList

/-- The nodes that a search from `initial` finds, those of `initial` included. -/
def reachable [LawfulEqOrd α] (edges : ExtTreeMap α (List α)) (initial : ExtTreeSet α) : ExtTreeSet α :=
  .ofList (visits edges initial)

end Reachability

end PredictiveParsing
