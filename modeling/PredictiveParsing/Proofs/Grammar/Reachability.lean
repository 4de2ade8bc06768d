import PredictiveParsing.Proofs.Grammar.Derivation
import PredictiveParsing.Proofs.Reachability

/-! # Reachable nonterminals

A nonterminal is reachable if it occurs in a string that is derived from the start symbol. Whatever holds of the start
symbol and goes from the head of a production to the nonterminals on its right holds of all reachable nonterminals.
The search for reachable nonterminals finds these and no others. -/

namespace PredictiveParsing

open Std

namespace Grammar

variable {g : Grammar} {x y : List Symbol} {a b : Nonterminal} {p : Production} {P : Nonterminal → Prop}

/-- Whether a nonterminal occurs in a string that is derived from the start symbol. -/
def Reaches (g : Grammar) (a : Nonterminal) : Prop :=
  ∃ x y, g.Derives [.nonterminal g.start] (x ++ .nonterminal a :: y)

/-- What goes from heads to the nonterminals of their bodies goes from a string to what is derived from it. -/
theorem Derives.forall_nonterminals (inherits : ∀ p ∈ g.productions, P p.head → ∀ a, .nonterminal a ∈ p.body → P a)
    (h : g.Derives x y) (start : ∀ a, .nonterminal a ∈ x → P a) : ∀ a, .nonterminal a ∈ y → P a := by
  induction h with
  | refl => exact start
  | head first _ ih =>
      apply ih
      cases first with
      | @replace p mem before after =>
          intro a ha
          rw [List.mem_append, List.mem_append] at ha
          rcases ha with hbefore | hbody | hafter
          · exact start a (List.mem_append_left _ hbefore)
          · have hhead : P p.head := start p.head (List.mem_append_right before List.mem_cons_self)
            exact inherits p mem hhead a hbody
          · exact start a (List.mem_append_right before (List.mem_cons_of_mem _ hafter))

theorem Reaches.induction (start : P g.start)
    (inherits : ∀ p ∈ g.productions, P p.head → ∀ a, .nonterminal a ∈ p.body → P a) (h : g.Reaches a) : P a := by
  obtain ⟨x, y, hderives⟩ := h
  refine hderives.forall_nonterminals inherits (fun b hb => ?_) a (List.mem_append_right x List.mem_cons_self)
  obtain rfl := Symbol.nonterminal.inj (List.mem_singleton.mp hb)
  exact start

theorem reaches_start (g : Grammar) : g.Reaches g.start := ⟨[], [], .refl _⟩

/-- The nonterminals on the right of a production are reachable if the head is. -/
theorem Reaches.of_mem_symbols (hg : g.WellFormed) (mem : p ∈ g.productions) (h : g.Reaches p.head)
    (ha : .nonterminal a ∈ p.symbols) : g.Reaches a := by
  obtain ⟨before, after, occurs⟩ := List.append_of_mem ha
  obtain ⟨x, y, hderives⟩ := h
  exact ⟨x ++ before, after ++ y, derives_occurrence hg mem occurs hderives⟩

/-- The edges lead from a nonterminal to those on the right of its alternatives. -/
theorem successors_edges (a : Nonterminal) :
    Reachability.successors g.edges a = (g.alternatives a).flatMap Production.nonterminals := by
  have hdistinct : g.heads.Pairwise fun a b => ¬compare a b = .eq := ExtTreeMap.distinct_keys
  by_cases hhead : a ∈ g.heads
  · have hfound : g.edges[a]? = some ((g.alternatives a).flatMap Production.nonterminals) := by
      apply ExtTreeMap.getElem?_ofList_of_mem ReflCmp.compare_self
      · exact List.pairwise_map.mpr hdistinct
      · exact List.mem_map.mpr ⟨a, hhead, rfl⟩
    rw [Reachability.successors, hfound, Option.getD_some]
  · have habsent : g.edges[a]? = none := by
      apply ExtTreeMap.getElem?_eq_none
      rw [edges, ExtTreeMap.mem_ofList, List.contains_iff_mem, List.map_map, List.mem_map]
      rintro ⟨b, hb, rfl⟩
      exact hhead hb
    have hrules : g.rules[a]? = none := ExtTreeMap.getElem?_eq_none fun h => hhead (ExtTreeMap.mem_keys.mpr h)
    rw [Reachability.successors, habsent, alternatives, hrules]
    rfl

theorem mem_successors_edges_iff (hg : g.WellFormed) :
    b ∈ Reachability.successors g.edges a ↔ ∃ p ∈ g.productions, p.head = a ∧ .nonterminal b ∈ p.symbols := by
  rw [successors_edges, List.mem_flatMap]
  simp only [hg.mem_alternatives_iff, and_assoc, Production.mem_nonterminals_iff]

/-- The search finds exactly the reachable nonterminals. -/
theorem mem_reachable_iff (hg : g.WellFormed) : a ∈ g.reachable ↔ g.Reaches a := by
  rw [reachable, Reachability.mem_reachable_iff]
  simp only [ExtTreeSet.mem_ofList, List.contains_iff_mem, List.mem_singleton, exists_eq_left]
  constructor
  · intro hleads
    induction hleads with
    | refl => exact g.reaches_start
    | tail _ step ih =>
        obtain ⟨p, mem, rfl, hp⟩ := (mem_successors_edges_iff hg).mp step
        exact ih.of_mem_symbols hg mem hp
  · intro hreaches
    refine hreaches.induction (P := Reachability.Leads g.edges g.start) .refl ?_
    intro p mem hleads b hb
    exact hleads.tail ((mem_successors_edges_iff hg).mpr ⟨p, mem, rfl, Production.mem_symbols_of_mem_body hb⟩)

end Grammar

end PredictiveParsing
