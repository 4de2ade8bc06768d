import PredictiveParsing.Proofs.Agreement
import PredictiveParsing.Proofs.Grammar.Reachability

/-! # Pruned grammars

A grammar is pruned by adding the productions of its reachable nonterminals, in order, to a grammar without
productions. None of these is refused, as it has not been refused before. The two grammars agree on the reachable
nonterminals, and all heads of the pruned one are reachable; it is closed if the other one is, and it has FIRST sets if
the other one has. -/

namespace PredictiveParsing

open Std

namespace Grammar

variable {g g' : Grammar} {k : Nat} {a : Nonterminal} {p : Production} {firsts : FirstSets}

/-- The grammar without the productions of unreachable nonterminals. -/
def prune (g : Grammar) : Except GrammarError Grammar := do
  let kept ← ofStart g.vocabulary g.start
  (g.productions.filter (·.head ∈ g.reachable)).foldlM (fun kept p => kept.insert p.head p) kept

namespace Constructed

theorem ofStart_eq (h : g.Constructed) : ofStart g.vocabulary g.start = .ok ⟨g.vocabulary, g.start, #[], ∅, ∅⟩ := by
  induction h with
  | start started =>
      obtain rfl := eq_of_ofStart started
      exact started
  | insert _ _ inserted ih =>
      obtain ⟨_, _, rfl⟩ := insert_eq_ok_iff.mp inserted
      exact ih

theorem constructed_of_mem (h : g.Constructed) (mem : p ∈ g.productions) : p.Constructed := by
  induction h with
  | start started =>
      rw [eq_of_ofStart started] at mem
      cases mem
  | insert _ fresh inserted ih =>
      rw [productions_of_insert inserted, List.mem_append, List.mem_singleton] at mem
      rcases mem with mem | rfl
      · exact ih mem
      · exact fresh

end Constructed

/-- A production with a fresh number can be added. -/
theorem exists_insert (hg : g.WellFormed) (fresh : ∀ q ∈ g.productions, q.id ≠ p.id) :
    ∃ g', g.insert p.head p = .ok g' ∧ g'.vocabulary = g.vocabulary ∧ g'.start = g.start ∧
      g'.productions = g.productions ++ [p] := by
  have habsent : p.id ∉ g.index := by
    intro hindex
    obtain ⟨i, hi⟩ := Option.isSome_iff_exists.mp (ExtTreeMap.mem_iff_isSome_getElem?.mp hindex)
    obtain ⟨q, hq, hid⟩ := (hg.indexed p.id i).mp hi
    exact fresh q (mem_productions_iff.mpr ⟨i, hq⟩) hid
  exact ⟨_, insert_eq_ok_iff.mpr ⟨rfl, habsent, rfl⟩, rfl, rfl, Array.toList_push⟩

/-- Productions with different fresh numbers can be added one after the other. -/
theorem exists_foldlM_insert {ps : List Production} (hg : g.Constructed) (made : ∀ p ∈ ps, p.Constructed)
    (distinct : (g.productions ++ ps).Pairwise fun p q => p.id ≠ q.id) :
    ∃ g', ps.foldlM (fun kept p => kept.insert p.head p) g = .ok g' ∧ g'.Constructed ∧
      g'.vocabulary = g.vocabulary ∧ g'.start = g.start ∧ g'.productions = g.productions ++ ps := by
  induction ps generalizing g with
  | nil => exact ⟨g, rfl, hg, rfl, rfl, (List.append_nil _).symm⟩
  | cons p rest ih =>
      obtain ⟨hp, hrest⟩ := List.forall_mem_cons.mp made
      have hfresh : ∀ q ∈ g.productions, q.id ≠ p.id :=
        fun q hq => (List.pairwise_append.mp distinct).2.2 q hq p List.mem_cons_self
      obtain ⟨next, hnext, hvocabulary, hstart, hproductions⟩ := exists_insert hg.wellFormed hfresh
      rw [List.append_cons, ← hproductions] at distinct
      obtain ⟨g', hfold, hconstructed, hvocabulary', hstart', hproductions'⟩ := ih (.insert hg hp hnext) hrest distinct
      refine ⟨g', ?_, hconstructed, hvocabulary'.trans hvocabulary, hstart'.trans hstart, ?_⟩
      · rw [List.foldlM_cons, hnext]
        exact hfold
      · rw [hproductions', hproductions, List.append_assoc, List.singleton_append]

/-- What pruning leaves of a grammar. -/
structure Pruned (g g' : Grammar) : Prop where
  constructed : g'.Constructed
  vocabulary : g'.vocabulary = g.vocabulary
  start : g'.start = g.start
  productions : g'.productions = g.productions.filter (·.head ∈ g.reachable)

/-- Every grammar can be pruned. -/
theorem exists_prune (hg : g.Constructed) : ∃ g', g.prune = .ok g' ∧ g.Pruned g' := by
  have hempty := hg.ofStart_eq
  have hmade : ∀ p ∈ g.productions.filter (·.head ∈ g.reachable), p.Constructed :=
    fun p mem => hg.constructed_of_mem (List.mem_of_mem_filter mem)
  obtain ⟨g', hfold, hconstructed, hvocabulary, hstart, hproductions⟩ :=
    exists_foldlM_insert (.start hempty) hmade (hg.wellFormed.pairwise_id_ne.filter _)
  refine ⟨g', ?_, hconstructed, hvocabulary, hstart, hproductions⟩
  rw [prune, hempty]
  exact hfold

namespace Pruned

variable (hg : g.WellFormed) (h : g.Pruned g')
include hg h

theorem mem_iff : p ∈ g'.productions ↔ p ∈ g.productions ∧ g.Reaches p.head := by
  rw [h.productions, List.mem_filter, decide_eq_true_eq, mem_reachable_iff hg]

/-- A grammar and what pruning leaves of it agree on the reachable nonterminals. -/
theorem agreesOn : AgreesOn g.Reaches g g' where
  inherits _ mem hhead _ ha := hhead.of_mem_symbols hg mem ha
  mem_iff p hhead := by
    rw [h.mem_iff hg]
    exact (and_iff_left hhead).symm
  alternatives a ha := by
    have hkept : g'.alternatives a = g.alternatives a := by
      rw [h.constructed.wellFormed.alternatives_eq_filter, hg.alternatives_eq_filter, h.productions, List.filter_filter]
      refine List.filter_congr fun p _ => ?_
      by_cases hhead : p.head = a
      · simp [hhead, (mem_reachable_iff hg).mpr ha]
      · simp [hhead]
    rw [hkept]

theorem reaches_iff : g'.Reaches a ↔ g.Reaches a := by
  have hstart : ∀ b, .nonterminal b ∈ [Symbol.nonterminal g.start] → g.Reaches b := by
    intro b hb
    rw [Symbol.nonterminal.inj (List.mem_singleton.mp hb)]
    exact g.reaches_start
  unfold Reaches
  rw [h.start]
  refine exists_congr fun x => exists_congr fun y => ?_
  exact ⟨fun hderives => (h.agreesOn hg).symm.derives hderives hstart,
    fun hderives => (h.agreesOn hg).derives hderives hstart⟩

/-- The start symbol and what stands on the right of its productions is reachable, so what they need is kept. -/
theorem closed (closed : g.Closed) : g'.Closed := by
  intro a ha
  have hreaches : g.Reaches a ∧ a ∈ g.referenced := by
    rcases mem_referenced_iff.mp ha with rfl | ⟨p, mem, hp⟩
    · rw [h.start]
      exact ⟨g.reaches_start, mem_referenced_iff.mpr (Or.inl rfl)⟩
    · obtain ⟨hmem, hhead⟩ := (h.mem_iff hg).mp mem
      exact ⟨hhead.of_mem_symbols hg hmem hp, mem_referenced_iff.mpr (Or.inr ⟨p, hmem, hp⟩)⟩
  rw [← (h.agreesOn hg).defines_eq hg h.constructed.wellFormed hreaches.1]
  exact closed a hreaches.2

/-- Nothing is left to be pruned. -/
theorem check_eq (closed : g.Closed) : g'.check = .ok [] := by
  obtain ⟨unreachable, hcheck⟩ := closed_iff_check.mp (h.closed hg closed)
  have hheads : ∀ a ∈ g'.heads, a ∈ g'.reachable := by
    intro a ha
    obtain ⟨p, mem, rfl⟩ := h.constructed.wellFormed.defines_iff.mp (mem_heads.mp ha)
    rw [mem_reachable_iff h.constructed.wellFormed, h.reaches_iff hg]
    exact ((h.mem_iff hg).mp mem).2
  have hnone : g'.heads.filter (· ∉ g'.reachable) = [] := by
    rw [List.filter_eq_nil_iff]
    intro a ha
    simpa using hheads a ha
  rw [hcheck, eq_filter_of_check hcheck, hnone]

/-- FIRST sets do not get lost by pruning. -/
theorem exists_firstSets (closed : g.Closed) (pos : 0 < k) (hfirsts : g.firstSets k = .ok firsts) :
    ∃ kept, g'.firstSets k = .ok kept := by
  have hloops := (exists_firstSets_iff hg closed pos).mp ⟨firsts, hfirsts⟩
  apply (exists_firstSets_iff h.constructed.wellFormed (h.closed hg closed) pos).mpr
  intro p mem hloop
  obtain ⟨hmem, hhead⟩ := (h.mem_iff hg).mp mem
  exact hloops p hmem ((h.agreesOn hg).symm.loops h.constructed.wellFormed hg mem hhead hloop)

end Pruned

end Grammar

end PredictiveParsing
