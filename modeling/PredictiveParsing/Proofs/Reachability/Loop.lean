import Mathlib.Tactic.Tauto
import PredictiveParsing.Proofs.Reachability

/-! # The search as a loop

A search that works in place has three sets: the nodes to be expanded, the nodes found while they are, and all nodes found
so far. At the end of a round the first two change places and the second is emptied. The search goes on until there is
nothing to expand. Since a node that is found is marked at once, no node is found twice and none is lost when the sets
change places: a round of the loop leaves exactly the sets of a round of the search. So the loop ends, after not many more
rounds than there are edges, with the nodes that the search finds. -/

namespace PredictiveParsing

open Std

namespace Reachability

/-- The nodes to be expanded, those found meanwhile, and all that have been found. -/
structure Search (α : Type) [Ord α] where
  current : ExtTreeSet α
  next : ExtTreeSet α
  seen : ExtTreeSet α

namespace Search

variable {α : Type} [Ord α] [TransOrd α]

def start (initial : List α) : Search α := ⟨.ofList initial, ∅, .ofList initial⟩

/-- Finds a node unless it has been found. -/
def find (s : Search α) (node : α) : Search α :=
  if node ∈ s.seen then s else { s with next := s.next.insert node, seen := s.seen.insert node }

/-- Finds the nodes that a function gives for a node. -/
def expand (f : α → List α) (s : Search α) (node : α) : Search α := (f node).foldl find s

def swap (s : Search α) : Search α := { s with current := s.next, next := s.current }

def clear (s : Search α) : Search α := { s with next := ∅ }

/-- Expands the nodes that are to be expanded, in ascending order, and hands over to what has been found. -/
def round (f : α → List α) (s : Search α) : Search α := (s.current.toList.foldl (expand f) s).swap.clear

/-- All that is found if the search ends within a number of rounds. -/
def run (f : α → List α) : Nat → Search α → Option (ExtTreeSet α)
  | 0, _ => none
  | limit + 1, s => if s.current.isEmpty then some s.seen else run f limit (s.round f)

variable {f : α → List α} {s : Search α} {nodes : List α} {node other : α}

theorem foldl_expand : nodes.foldl (expand f) s = (nodes.flatMap f).foldl find s := by
  rw [List.foldl_flatMap]
  rfl

variable [LawfulEqOrd α]

theorem mem_seen_find : other ∈ (s.find node).seen ↔ other = node ∨ other ∈ s.seen := by
  unfold find
  split
  · rename_i hseen
    exact ⟨Or.inr, fun h => h.elim (fun heq => heq ▸ hseen) id⟩
  · rw [ExtTreeSet.mem_insert, LawfulEqOrd.compare_eq_iff_eq, @eq_comm _ node]

theorem mem_next_find : other ∈ (s.find node).next ↔ other = node ∧ node ∉ s.seen ∨ other ∈ s.next := by
  unfold find
  split
  · rename_i hseen
    exact ⟨Or.inr, fun h => h.elim (fun hnew => absurd hseen hnew.2) id⟩
  · rename_i hfresh
    rw [ExtTreeSet.mem_insert, LawfulEqOrd.compare_eq_iff_eq, @eq_comm _ node, and_iff_left hfresh]

theorem mem_seen_foldl_find : other ∈ (nodes.foldl find s).seen ↔ other ∈ nodes ∨ other ∈ s.seen := by
  induction nodes generalizing s with
  | nil => simp
  | cons node rest ih =>
      rw [List.foldl_cons, ih, mem_seen_find, List.mem_cons]
      tauto

/-- Only what had not been seen before is found, and it is found although it is marked when it comes up again. -/
theorem mem_next_foldl_find :
    other ∈ (nodes.foldl find s).next ↔ (other ∈ nodes ∧ other ∉ s.seen) ∨ other ∈ s.next := by
  induction nodes generalizing s with
  | nil => simp
  | cons node rest ih =>
      rw [List.foldl_cons, ih, mem_seen_find, mem_next_find, List.mem_cons]
      by_cases heq : other = node
      · subst heq
        tauto
      · tauto

section

variable {edges : ExtTreeMap α (List α)} (same : ∀ node next, next ∈ f node ↔ next ∈ successors edges node)
  {frontier seen initial : ExtTreeSet α}
include same

/-- A round of the loop leaves what a round of the search discovers, and has seen that as well. -/
theorem round_eq : round f ⟨frontier, ∅, seen⟩ =
    ⟨discover edges frontier seen, ∅, seen ∪ discover edges frontier seen⟩ := by
  have hfound : ∀ node, node ∈ frontier.toList.flatMap f ↔ ∃ root ∈ frontier, node ∈ successors edges root := by
    intro node
    simp only [List.mem_flatMap, ExtTreeSet.mem_toList, same]
  rw [round, foldl_expand, swap, clear, mk.injEq]
  refine ⟨ExtTreeSet.ext_mem fun node => ?_, rfl, ExtTreeSet.ext_mem fun node => ?_⟩
  · rw [mem_next_foldl_find, hfound, mem_discover]
    simp
  · rw [mem_seen_foldl_find, hfound, ExtTreeSet.mem_union_iff, mem_discover]
    by_cases hseen : node ∈ seen <;> simp [hseen]

/-- The loop ends within the number of edges and two more rounds, with what the search finds. -/
theorem exists_run (within : ∀ node, node ∈ frontier → node ∈ seen) {limit : Nat}
    (enough : (unseen edges seen).length + 2 ≤ limit) :
    ∃ found, run f limit ⟨frontier, ∅, seen⟩ = some found ∧ ∀ node, node ∈ found ↔ Finds edges frontier seen node := by
  obtain ⟨limit, rfl⟩ : ∃ n, limit = n + 1 := ⟨limit - 1, by omega⟩
  induction frontier, seen using rounds.induct edges generalizing limit with
  | case1 frontier seen fresh hnone =>
      -- The round finds nothing, so that all has been seen, and the next one has nothing to expand.
      have hsame : seen ∪ discover edges frontier seen = seen := by
        rw [show discover edges frontier seen = ∅ from ExtTreeSet.isEmpty_iff.mp hnone]
        exact ExtTreeSet.ext_mem fun node => by simp
      refine ⟨seen, ?_, fun node => ⟨Or.inl, ?_⟩⟩
      · rw [run]
        split
        · rfl
        · obtain ⟨n, rfl⟩ : ∃ n, limit = n + 1 := ⟨limit - 1, by omega⟩
          rw [round_eq same, hsame, run, if_pos hnone]
      · rintro (hseen | ⟨found, hfound, hnode⟩)
        · exact hseen
        · rw [rounds_of_isEmpty hnone, List.mem_singleton] at hfound
          exact within node (hfound ▸ hnode)
  | case2 frontier seen fresh hsome ih =>
      have hless : (unseen edges (seen ∪ fresh)).length < (unseen edges seen).length := length_unseen_lt hsome
      have hopen : ¬frontier.isEmpty = true := by
        intro hempty
        obtain rfl := ExtTreeSet.isEmpty_iff.mp hempty
        refine hsome (ExtTreeSet.isEmpty_iff.mpr (ExtTreeSet.ext_mem fun node => ?_))
        rw [mem_discover]
        simp
      obtain ⟨n, rfl⟩ : ∃ n, limit = n + 1 := ⟨limit - 1, by omega⟩
      obtain ⟨found, hrun, hfound⟩ := ih (fun _ h => ExtTreeSet.mem_union_iff.mpr (Or.inr h)) n (by omega)
      refine ⟨found, ?_, fun node => (hfound node).trans (finds_discover_iff within hsome)⟩
      rw [run, if_neg hopen, round_eq same]
      exact hrun

/-- From initial nodes the loop ends with all nodes to which a path leads from them. -/
theorem run_start {initial : List α} {limit : Nat} (enough : (targets edges).length + 2 ≤ limit) :
    run f limit (start initial) = some (reachable edges (.ofList initial)) := by
  have hunseen : (unseen edges (.ofList initial)).length ≤ (targets edges).length := List.length_filter_le _ _
  have hwithin : ∀ node, node ∈ ExtTreeSet.ofList initial → node ∈ ExtTreeSet.ofList initial := fun _ h => h
  obtain ⟨found, hrun, hfound⟩ := exists_run same hwithin (Nat.le_trans (Nat.add_le_add_right hunseen 2) enough)
  rw [start, hrun, Option.some.injEq]
  exact ExtTreeSet.ext_mem fun node => (hfound node).trans mem_reachable_iff_finds.symm

end

end Search

end Reachability

end PredictiveParsing
