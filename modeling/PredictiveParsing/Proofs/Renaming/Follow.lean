import PredictiveParsing.Proofs.Follow
import PredictiveParsing.Proofs.Follow.Rules
import PredictiveParsing.Proofs.Renaming.First

/-! # FOLLOW sets of renamed grammars

The FIRST words of a string of symbols are collected in an order that depends on the numbers, but as a set they are
the renamed ones. The rounds of FOLLOW add words in such an order too. What they settle at is generated by rules that
do not mention any order, and the keys of the table are the heads and what the rules reach; so the FOLLOW sets of a
renamed grammar are the renamed ones. -/

namespace PredictiveParsing

open Std

namespace Follow

variable {ρ : Renaming} {firsts : FirstSets} {nullable : ExtTreeSet Nonterminal} {k : Nat}

/-- A list holds the renamed members of another one, in some order. -/
def RenamedIn (ρ : Renaming) (options options' : List Lookahead) : Prop :=
  ∀ w, w ∈ options' ↔ ∃ v ∈ options, ρ.word v = w

theorem get_firstSets (ρ : Renaming) (firsts : FirstSets) (a : Nonterminal) :
    (ρ.firstSets firsts).get (ρ.nonterminal a) = ρ.words (firsts.get a) :=
  MultiMap.get_relabel ρ.nonterminal_injective a

theorem options_rename (symbol : Symbol) :
    RenamedIn ρ (options firsts nullable symbol)
      (options (ρ.firstSets firsts) (ρ.nonterminals nullable) (ρ.symbol symbol)) := by
  intro w
  cases symbol with
  | terminal t =>
      have hword : ρ.word (.ofTerminals [t]) = .ofTerminals [ρ.terminal t] := ρ.word_ofTerminals [t]
      simp only [options, Numbering.symbol, List.mem_singleton, exists_eq_left, hword, @eq_comm _ w]
  | nonterminal a =>
      have hcontains : (ρ.nonterminals nullable).contains (ρ.nonterminal a) = nullable.contains a :=
        contains_image ρ.nonterminal_injective a
      simp only [Numbering.symbol, mem_options_nonterminal, get_firstSets, hcontains, Numbering.words, mem_image]
      constructor
      · rintro (⟨v, hv, rfl⟩ | ⟨hnullable, rfl⟩)
        · exact ⟨v, Or.inl hv, rfl⟩
        · exact ⟨.empty, Or.inr ⟨hnullable, rfl⟩, rfl⟩
      · rintro ⟨v, hv | ⟨hnullable, rfl⟩, rfl⟩
        · exact Or.inl ⟨v, hv, rfl⟩
        · exact Or.inr ⟨hnullable, rfl⟩

theorem combine_rename (words : ExtTreeSet Lookahead) {options options' : List Lookahead}
    (renamed : RenamedIn ρ options options') :
    combine k (ρ.words words) options' = ρ.words (combine k words options) := by
  apply ExtTreeSet.ext_mem
  intro w
  simp only [mem_combine, Numbering.words, mem_image, renamed _]
  constructor
  · rintro ⟨_, ⟨u, hu, rfl⟩, _, ⟨v, hv, rfl⟩, rfl⟩
    exact ⟨_, ⟨u, hu, v, hv, rfl⟩, (ρ.concat_word u v k).symm⟩
  · rintro ⟨_, ⟨u, hu, v, hv, rfl⟩, rfl⟩
    exact ⟨_, ⟨u, hu, rfl⟩, _, ⟨v, hv, rfl⟩, ρ.concat_word u v k⟩

theorem all_isComplete_rename (words : ExtTreeSet Lookahead) :
    (ρ.words words).toList.all (·.isComplete k) = words.toList.all (·.isComplete k) := by
  rw [Numbering.words, all_toList_image]
  simp only [ρ.isComplete_word]

theorem continued_rename (words : ExtTreeSet Lookahead) (symbols : List Symbol) :
    continued (ρ.firstSets firsts) (ρ.nonterminals nullable) k (ρ.words words) (symbols.map ρ.symbol) =
      ρ.words (continued firsts nullable k words symbols) := by
  induction symbols generalizing words with
  | nil => rfl
  | cons symbol rest ih =>
      rw [List.map_cons, continued, continued, all_isComplete_rename, ρ.isEpsilon_symbol]
      split
      · rfl
      · split
        · exact ih words
        · rw [combine_rename words (options_rename symbol)]
          exact ih _

/-- The FIRST words of renamed symbols are the renamed ones. -/
theorem firstWords_rename (symbols : List Symbol) :
    firstWords (ρ.firstSets firsts) (ρ.nonterminals nullable) k (symbols.map ρ.symbol) =
      ρ.words (firstWords firsts nullable k symbols) := by
  have hempty : ρ.words (.ofList [Lookahead.empty]) = .ofList [Lookahead.empty] := by
    apply ExtTreeSet.ext_mem
    intro w
    simp only [Numbering.words, mem_image, ExtTreeSet.mem_ofList, List.contains_iff_mem, List.mem_singleton,
      exists_eq_left, ρ.word_empty, @eq_comm _ w]
  rw [firstWords, firstWords, ← continued_rename, hempty]

variable {g g' : Grammar}

/-- Where a nonterminal occurs in a renamed grammar, a nonterminal of which it is the renamed one occurs. -/
theorem exists_occurrence (h : g.Renames ρ g') {q : Production} (mem : q ∈ g'.productions)
    {before after : List Symbol} {b : Nonterminal} (occurs : q.symbols = before ++ .nonterminal b :: after) :
    ∃ p ∈ g.productions, ρ.rule p = q ∧ ∃ before' a after', p.symbols = before' ++ .nonterminal a :: after' ∧
      ρ.nonterminal a = b ∧ after'.map ρ.symbol = after := by
  obtain ⟨p, hp, rfl⟩ := h.mem_iff.mp mem
  obtain ⟨before', later, hsymbols, _, hlater⟩ := List.map_eq_append_iff.mp occurs
  obtain ⟨symbol, after', rfl, hsymbol, hafter⟩ := List.map_eq_cons_iff.mp hlater
  cases symbol with
  | terminal => cases hsymbol
  | nonterminal a => exact ⟨p, hp, rfl, before', a, after', hsymbols, Symbol.nonterminal.inj hsymbol, hafter⟩

/-- The rules of FOLLOW put a word behind a nonterminal of the renamed grammar just if it is a renamed word that they
put behind a nonterminal of the other one. -/
theorem follows_rename_iff (h : g.Renames ρ g') {b : Nonterminal} {w : Lookahead} :
    Follows g' (ρ.firstSets firsts) (ρ.nonterminals nullable) k b w ↔
      ∃ a v, Follows g firsts nullable k a v ∧ ρ.nonterminal a = b ∧ ρ.word v = w := by
  have hend : ρ.word (.ofTerminals [.endMarker]) = .ofTerminals [.endMarker] := by
    rw [ρ.word_ofTerminals, List.map_cons, List.map_nil, ρ.terminal_endMarker]
  have hword : ∀ {symbols : List Symbol} {u : Lookahead},
      u ∈ firstWords (ρ.firstSets firsts) (ρ.nonterminals nullable) k (symbols.map ρ.symbol) ↔
        ∃ v ∈ firstWords firsts nullable k symbols, ρ.word v = u := by
    intro symbols u
    rw [firstWords_rename, Numbering.words, mem_image]
  have hoccurs : ∀ {p : Production} {before after : List Symbol} {a : Nonterminal},
      p.symbols = before ++ .nonterminal a :: after →
      (ρ.rule p).symbols = before.map ρ.symbol ++ .nonterminal (ρ.nonterminal a) :: after.map ρ.symbol := by
    intro p before after a occurs
    rw [Numbering.rule, occurs, List.map_append, List.map_cons]
    rfl
  constructor
  · intro follows
    induction follows with
    | start => exact ⟨g.start, _, .start, h.start.symm, hend⟩
    | complete mem occurs word complete =>
        obtain ⟨p, hp, _, before, a, after, hsymbols, rfl, rfl⟩ := exists_occurrence h mem occurs
        obtain ⟨u, hu, rfl⟩ := hword.mp word
        rw [ρ.isComplete_word] at complete
        exact ⟨a, u, .complete hp hsymbols hu complete, rfl, rfl⟩
    | continued mem occurs word incomplete _ ih =>
        obtain ⟨p, hp, rfl, before, a, after, hsymbols, rfl, rfl⟩ := exists_occurrence h mem occurs
        obtain ⟨u, hu, rfl⟩ := hword.mp word
        obtain ⟨head, v, hv, hhead, rfl⟩ := ih
        obtain rfl := ρ.nonterminal_injective hhead
        rw [ρ.isComplete_word] at incomplete
        exact ⟨a, u.concat v k, .continued hp hsymbols hu incomplete hv, rfl, (ρ.concat_word u v k).symm⟩
  · rintro ⟨a, v, follows, rfl, rfl⟩
    induction follows with
    | start =>
        rw [hend, ← h.start]
        exact .start
    | complete mem occurs word complete =>
        rw [← ρ.isComplete_word] at complete
        exact .complete (h.rule_mem_iff.mpr mem) (hoccurs occurs) (hword.mpr ⟨_, word, rfl⟩) complete
    | continued mem occurs word incomplete _ ih =>
        rw [← ρ.isComplete_word] at incomplete
        rw [← ρ.concat_word]
        exact .continued (h.rule_mem_iff.mpr mem) (hoccurs occurs) (hword.mpr ⟨_, word, rfl⟩) incomplete ih

end Follow

namespace Grammar

namespace Renames

variable {ρ : Renaming} {g g' : Grammar} (h : g.Renames ρ g') (hg : g.WellFormed) (hg' : g'.WellFormed)
include h hg hg'

/-- The FOLLOW sets of a renamed grammar are the renamed ones. -/
theorem followSets_eq (k : Nat) (firsts : FirstSets) (nullable : ExtTreeSet Nonterminal) :
    g'.followSets k (ρ.firstSets firsts) (ρ.nonterminals nullable) =
      ρ.wordTable (g.followSets k firsts nullable) := by
  have hfollows : ∀ b w, w ∈ (g'.followSets k (ρ.firstSets firsts) (ρ.nonterminals nullable)).get b ↔
      ∃ a v, v ∈ (g.followSets k firsts nullable).get a ∧ ρ.nonterminal a = b ∧ ρ.word v = w := by
    intro b w
    simp only [mem_followSets_iff, Follow.follows_rename_iff h]
  refine MultiMap.eq_relabel ρ.nonterminal_injective (fun b => ?_) fun a => ?_
  · simp only [mem_sets_followSets_iff, h.mem_heads_iff hg hg', hfollows]
    constructor
    · rintro (⟨a, ha, rfl⟩ | ⟨_, a, v, hv, rfl, rfl⟩)
      · exact ⟨a, Or.inl ha, rfl⟩
      · exact ⟨a, Or.inr ⟨v, hv⟩, rfl⟩
    · rintro ⟨a, ha | ⟨v, hv⟩, rfl⟩
      · exact Or.inl ⟨a, ha, rfl⟩
      · exact Or.inr ⟨_, a, v, hv, rfl, rfl⟩
  · apply ExtTreeSet.ext_mem
    intro w
    rw [hfollows, mem_image]
    constructor
    · rintro ⟨b, v, hv, hb, rfl⟩
      rw [ρ.nonterminal_injective hb] at hv
      exact ⟨v, hv, rfl⟩
    · rintro ⟨v, hv, rfl⟩
      exact ⟨a, v, hv, rfl, rfl⟩

end Renames

end Grammar

end PredictiveParsing
