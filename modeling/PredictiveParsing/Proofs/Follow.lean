import PredictiveParsing.Follow
import PredictiveParsing.Proofs.First.Sets

/-! # FOLLOW sets keep within the bound

The words of a production are well formed and within the bound. Continuing words by words keeps them so, and therefore
the FIRST words of any string of symbols and everything that the rounds of FOLLOW find are so too. -/

namespace PredictiveParsing

open Std

namespace Follow

variable {g : Grammar} {k : Nat} {firsts : FirstSets} {nullable : ExtTreeSet Nonterminal}

theorem mem_combine {words : ExtTreeSet Lookahead} {options : List Lookahead} {w : Lookahead} :
    w ∈ combine k words options ↔ ∃ u : Lookahead, u ∈ words ∧ ∃ v ∈ options, u.concat v k = w := by
  rw [combine, ExtTreeSet.mem_ofList, List.contains_iff_mem, List.mem_flatMap]
  simp only [List.mem_map, ExtTreeSet.mem_toList]

theorem mem_options_nonterminal {a : Nonterminal} {w : Lookahead} :
    w ∈ options firsts nullable (.nonterminal a) ↔ w ∈ firsts.get a ∨ nullable.contains a = true ∧ w = .empty := by
  rw [options, List.mem_append, ExtTreeSet.mem_toList]
  refine or_congr_right ?_
  split <;> simp_all

theorem wellFormed_of_mem_options (wellFormed : ∀ a, ∀ w ∈ firsts.get a, w.WellFormed) {symbol : Symbol}
    {w : Lookahead} (h : w ∈ options firsts nullable symbol) : w.WellFormed := by
  cases symbol with
  | terminal t =>
      rw [List.mem_singleton.mp h]
      exact Lookahead.wellFormed_ofTerminals [t]
  | nonterminal a =>
      rcases mem_options_nonterminal.mp h with h | ⟨-, rfl⟩
      · exact wellFormed a w h
      · exact (Lookahead.within_empty 0).wellFormed

theorem within_of_mem_continued (wellFormed : ∀ a, ∀ w ∈ firsts.get a, w.WellFormed) {symbols : List Symbol}
    {words : ExtTreeSet Lookahead} (within : ∀ w : Lookahead, w ∈ words → w.Within k) :
    ∀ w : Lookahead, w ∈ continued firsts nullable k words symbols → w.Within k := by
  induction symbols generalizing words with
  | nil => exact within
  | cons symbol rest ih =>
      unfold continued
      split
      · exact within
      · split
        · exact ih within
        · refine ih fun w hw => ?_
          obtain ⟨u, hu, v, hv, rfl⟩ := mem_combine.mp hw
          exact (within u hu).concat (wellFormed_of_mem_options wellFormed hv)

theorem within_of_mem_firstWords (wellFormed : ∀ a, ∀ w ∈ firsts.get a, w.WellFormed) (symbols : List Symbol) :
    ∀ w : Lookahead, w ∈ firstWords firsts nullable k symbols → w.Within k := by
  apply within_of_mem_continued wellFormed
  intro w hw
  rw [ExtTreeSet.mem_ofList, List.contains_iff_mem, List.mem_singleton] at hw
  rw [hw]
  exact Lookahead.within_empty k

theorem within_of_mem_trailing (wellFormed : ∀ a, ∀ w ∈ firsts.get a, w.WellFormed) {head : Nonterminal}
    {symbols : List Symbol} {o : Occurrence} (ho : o ∈ occurrencesIn firsts nullable k head symbols) :
    ∀ u ∈ o.trailing, u.Within k := by
  induction symbols with
  | nil => cases ho
  | cons symbol rest ih =>
      cases symbol with
      | terminal t => exact ih ho
      | nonterminal a =>
          rcases List.mem_cons.mp ho with rfl | ho
          · intro u hu
            exact within_of_mem_firstWords wellFormed rest u (ExtTreeSet.mem_toList.mp hu)
          · exact ih ho

theorem within_round_words {occurrences : List Occurrence} (trailing : ∀ o ∈ occurrences, ∀ u ∈ o.trailing, u.Within k)
    {known : LookaheadTable} (within : ∀ a, ∀ w ∈ known.get a, w.Within k) :
    ∀ a, ∀ w ∈ (round occurrences k known).1.get a, w.Within k := by
  intro a w hw
  rcases mem_get_sweep_add.mp hw with hw | hw
  · obtain ⟨o, ho, hw⟩ := List.mem_flatMap.mp hw
    obtain ⟨_, hw, heq⟩ := List.mem_map.mp hw
    cases heq
    obtain ⟨u, hu, hw⟩ := List.mem_flatMap.mp hw
    split at hw
    · rw [List.mem_singleton.mp hw]
      exact trailing o ho u hu
    · obtain ⟨v, hv, rfl⟩ := List.mem_map.mp hw
      exact (trailing o ho u hu).concat (within o.head v (ExtTreeSet.mem_toList.mp hv)).wellFormed
  · exact within a w hw

theorem within_of_mem_close (pos : 0 < k) {occurrences : List Occurrence} (start : Nonterminal)
    (trailing : ∀ o ∈ occurrences, ∀ u ∈ o.trailing, u.Within k) :
    ∀ a, ∀ w ∈ (close occurrences k start).get a, w.Within k := by
  unfold close
  apply settle_induction (P := fun (known : { known // Within occurrences k known }) =>
    ∀ a, ∀ w ∈ known.1.get a, w.Within k)
  · intro a w hw
    change w ∈ (initial start).get a at hw
    rw [initial, MultiMap.mem_get_insert, MultiMap.get_empty] at hw
    rcases hw with ⟨_, rfl⟩ | hw
    · exact ⟨Lookahead.wellFormed_ofTerminals _, pos⟩
    · simp at hw
  · intro known within
    exact within_round_words trailing within

end Follow

namespace Grammar

variable {g : Grammar} {k : Nat} {firsts : FirstSets}

theorem within_of_mem_firstSets (h : g.firstSets k = .ok firsts) {a : Nonterminal} {w : Lookahead}
    (hw : w ∈ firsts.get a) : w.Within k := by
  obtain ⟨p, _, _, hword⟩ := (mem_get_firstSets h).mp hw
  cases hkind : p.isEpsilon with
  | true =>
      rw [First.ofProduction, hkind, if_pos rfl] at hword
      cases hword
      exact Lookahead.within_empty k
  | false => exact (First.reading_of_ofProduction hkind hword).1

theorem within_of_mem_followSets (pos : 0 < k) (h : g.firstSets k = .ok firsts) {a : Nonterminal} {w : Lookahead}
    (hw : w ∈ (g.followSets k firsts g.nullable).get a) : w.Within k := by
  rw [followSets, MultiMap.get_touchAll] at hw
  refine Follow.within_of_mem_close pos g.start ?_ a w hw
  intro o ho
  obtain ⟨p, _, ho⟩ := List.mem_flatMap.mp ho
  exact Follow.within_of_mem_trailing (fun a w hw => (within_of_mem_firstSets h hw).wellFormed) ho

end Grammar

end PredictiveParsing
