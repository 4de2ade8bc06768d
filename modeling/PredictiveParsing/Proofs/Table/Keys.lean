import PredictiveParsing.Proofs.Follow.Rules
import PredictiveParsing.Proofs.Table.Ownership

/-! # Analysed words as keys

A table is searched by words that have no epsilon marker, no end marker but as the last terminal, and at most `k`
terminals. The words of FIRST are like this because they are read from right-hand sides within the bound. What follows
a nonterminal is moreover complete, so that it is not empty and nothing is left to be said behind it. A production claims
words of these two kinds only, and where it would claim the empty word it claims what follows instead; so every key of a
table is a word like this, and not empty. -/

namespace PredictiveParsing

open Std

namespace Lookahead

variable {w : Lookahead} {k : Nat}

/-- A complete word within the bound fills it or has ended. -/
theorem Within.length_eq_or_isTerminated (h : w.Within k) (complete : w.isComplete k = true) :
    w.length = k ∨ w.isTerminated = true := by
  rw [isComplete, Bool.or_eq_true, decide_eq_true_eq] at complete
  exact complete.imp_left (Nat.le_antisymm h.length_le)

theorem ne_empty_of_isComplete (pos : 0 < k) (complete : w.isComplete k = true) : w ≠ .empty := by
  rintro rfl
  rw [isComplete_empty pos] at complete
  cases complete

end Lookahead

namespace Prediction

variable {g : Grammar} {k : Nat} {found : Prediction} {p : Production} {w : Lookahead}

theorem isComplete_of_mem_follows (hfound : found.Describes g k) {a : Nonterminal} (h : w ∈ found.follows.get a) :
    w.isComplete k = true := by
  rw [hfound.follows] at h
  exact (Grammar.mem_followSets_iff.mp h).isComplete

/-- What a production claims is within the bound. -/
theorem Claims.within (hfound : found.Describes g k) (h : found.Claims p w) : w.Within k := by
  rcases h with hfirst | hfollow
  · exact Grammar.within_of_mem_firstSets hfound.firsts hfirst.mem
  · exact within_of_mem_follows hfound hfollow.mem

/-- No production claims the empty word. -/
theorem Claims.ne_empty (hfound : found.Describes g k) (h : found.Claims p w) : w ≠ .empty := by
  rcases h with hfirst | hfollow
  · exact hfirst.nonempty
  · exact Lookahead.ne_empty_of_isComplete hfound.pos (isComplete_of_mem_follows hfound hfollow.mem)

end Prediction

namespace Grammar

variable {g : Grammar} {k : Nat}

/-- The words of a production, of the FIRST sets and of the FOLLOW sets, and the keys of a table, are well formed and
within the bound. Every head has a FIRST word, every FOLLOW word fills the bound or has ended, and no key is empty. -/
theorem analysed_words_are_keys (constructed : g.Constructed) (pos : 0 < k) :
    (∀ firsts, g.firstSets k = .ok firsts →
      (∀ id w, firsts.word? id = some w → w.WellFormed ∧ w.length ≤ k) ∧
      (∀ a, ∀ w ∈ firsts.get a, w.WellFormed ∧ w.length ≤ k) ∧
      (∀ a, g.defines a = true → ∃ w, w ∈ firsts.get a) ∧
      ∀ a, ∀ w ∈ (g.followSets k firsts g.nullable).get a,
        w.WellFormed ∧ w.length ≤ k ∧ (w.length = k ∨ w.isTerminated = true)) ∧
    ∀ table, g.table k = .ok table →
      ∀ a w id, table.get? a w = some id → w.WellFormed ∧ w.length ≤ k ∧ w ≠ .empty := by
  have hg := constructed.wellFormed
  refine ⟨fun firsts hfirsts => ⟨?_, ?_, ?_, ?_⟩, ?_⟩
  · intro id w hw
    obtain ⟨p, mem, _, hword⟩ := exists_of_word? hg hfirsts hw
    have hwithin := within_of_mem_firstSets hfirsts ((mem_get_firstSets hfirsts).mpr ⟨p, mem, rfl, hword⟩)
    exact ⟨hwithin.wellFormed, hwithin.length_le⟩
  · intro a w hw
    have hwithin := within_of_mem_firstSets hfirsts hw
    exact ⟨hwithin.wellFormed, hwithin.length_le⟩
  · intro a ha
    obtain ⟨p, mem, hhead⟩ := hg.defines_iff.mp ha
    obtain ⟨w, hword⟩ := exists_ofProduction_of_firstSets hfirsts mem
    exact ⟨w, (mem_get_firstSets hfirsts).mpr ⟨p, mem, hhead, hword⟩⟩
  · intro a w hw
    have hwithin := within_of_mem_followSets pos hfirsts hw
    have hcomplete := (mem_followSets_iff.mp hw).isComplete
    exact ⟨hwithin.wellFormed, hwithin.length_le, hwithin.length_eq_or_isTerminated hcomplete⟩
  · intro table htable a w id hentry
    obtain ⟨found, hfound, _⟩ := table_eq_ok_iff.mp htable
    have hdescribes := Prediction.describes_of_prediction hfound
    obtain ⟨p, _, _, _, hclaims⟩ := exists_claim_of_get?_table hg hfound htable hentry
    have hwithin := hclaims.within hdescribes
    exact ⟨hwithin.wellFormed, hwithin.length_le, hclaims.ne_empty hdescribes⟩

theorem analysed_words_of_nested_are_keys :
    (∃ firsts, nested.firstSets 2 = .ok firsts ∧ firsts.word? ⟨0⟩ = some ⟨[⟨2⟩, ⟨2⟩]⟩ ∧
      (∃ w, w ∈ firsts.get ⟨1⟩) ∧
      ∀ w ∈ (nested.followSets 2 firsts nested.nullable).get ⟨1⟩, w.length = 2 ∨ w.isTerminated = true) ∧
    nestedTable.get? ⟨1⟩ ⟨[.endMarker]⟩ = some ⟨2⟩ ∧ (⟨[.endMarker]⟩ : Lookahead).WellFormed := by
  obtain ⟨hwords, _⟩ := analysed_words_are_keys constructed_nested (by decide : 0 < 2)
  obtain ⟨_, hkeys⟩ := analysed_words_are_keys constructed_nested (by decide : 0 < 1)
  obtain ⟨firsts, hfirsts, hword⟩ :
      ∃ firsts, nested.firstSets 2 = .ok firsts ∧ firsts.word? ⟨0⟩ = some ⟨[⟨2⟩, ⟨2⟩]⟩ := ⟨_, by cbv, by cbv⟩
  obtain ⟨_, _, hheads, hfollows⟩ := hwords firsts hfirsts
  have hentry : nestedTable.get? ⟨1⟩ ⟨[.endMarker]⟩ = some ⟨2⟩ := by cbv
  exact ⟨⟨firsts, hfirsts, hword, hheads ⟨1⟩ (by cbv), fun w hw => (hfollows ⟨1⟩ w hw).2.2⟩, hentry,
    (hkeys nestedTable table_nested _ _ _ hentry).1⟩

end Grammar

end PredictiveParsing
