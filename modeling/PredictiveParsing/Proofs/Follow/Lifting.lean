import PredictiveParsing.Proofs.Follow.Truncation
import PredictiveParsing.Proofs.Grammar.Reachability

/-! # FIRST and FOLLOW under a larger bound

Every word that the analyses find under a bound is a word that they find under a larger one, cut short. For FIRST this
holds production by production. In FOLLOW a word that the smaller bound completes may be open under the larger one; it
is then continued by something that follows the head, which exists because every head is reachable. So analyses with
different bounds tell the same as far as the smaller one goes. -/

namespace PredictiveParsing

open Std

namespace Follow

variable {g : Grammar} {nullable : ExtTreeSet Nonterminal} {j k : Nat} {fewer firsts : FirstSets} {u v w : Lookahead}
  {symbols : List Symbol} {a : Nonterminal}

section

variable (pos : 0 < j) (lift : ∀ a, ∀ v ∈ fewer.get a, ∃ w ∈ firsts.get a, w.truncate j = v)
include pos lift

theorem exists_mem_options {symbol : Symbol} (h : v ∈ options fewer nullable symbol) :
    ∃ w ∈ options firsts nullable symbol, w.truncate j = v := by
  cases symbol with
  | terminal t =>
      obtain rfl := List.mem_singleton.mp h
      have hlength : (Lookahead.ofTerminals [t]).length ≤ 1 := Lookahead.length_ofTerminals_le [t]
      exact ⟨_, List.mem_singleton_self _, Lookahead.truncate_of_length_le (Nat.le_trans hlength pos)⟩
  | nonterminal a =>
      rcases mem_options_nonterminal.mp h with hfirst | ⟨hnullable, rfl⟩
      · obtain ⟨w, hw, hcut⟩ := lift a v hfirst
        exact ⟨w, mem_options_nonterminal.mpr (Or.inl hw), hcut⟩
      · exact ⟨.empty, mem_options_nonterminal.mpr (Or.inr ⟨hnullable, rfl⟩),
          Lookahead.truncate_of_length_le (Nat.zero_le j)⟩

/-- A continuation of a word that is cut short is a continuation of the word, cut short. -/
theorem Continues.exists_of_truncate (le : j ≤ k) (h : Continues fewer nullable j (u.truncate j) symbols v) :
    ∃ w, Continues firsts nullable k u symbols w ∧ w.truncate j = v := by
  generalize hu : u.truncate j = u' at h
  induction h generalizing u with
  | stop => exact ⟨u, .stop u, hu⟩
  | epsilon _ ih =>
      obtain ⟨w, hw, hcut⟩ := ih hu
      exact ⟨w, .epsilon hw, hcut⟩
  | @step u' v' v symbol rest plain option later ih =>
      obtain ⟨s, hs, rfl⟩ := exists_mem_options pos lift option
      have hconcat : (u.concat s k).truncate j = u'.concat (s.truncate j) j := by
        rw [Lookahead.truncate_concat u s le, hu]
      obtain ⟨w, hw, hcut⟩ := ih hconcat
      exact ⟨w, .step plain hs hw, hcut⟩

end

/-- A word has a continuation through every string all of whose symbols have something to put in their place. -/
theorem exists_continues (inhabited : ∀ symbol ∈ symbols, options firsts nullable symbol ≠ []) (u : Lookahead) :
    ∃ w, Continues firsts nullable k u symbols w := by
  induction symbols generalizing u with
  | nil => exact ⟨u, .stop u⟩
  | cons symbol rest ih =>
      obtain ⟨hsymbol, hrest⟩ := List.forall_mem_cons.mp inhabited
      cases hkind : symbol.isEpsilon with
      | true =>
          obtain ⟨w, hw⟩ := ih hrest u
          rw [Symbol.isEpsilon_iff.mp hkind]
          exact ⟨w, .epsilon hw⟩
      | false =>
          obtain ⟨v, hv⟩ := List.exists_mem_of_ne_nil _ hsymbol
          obtain ⟨w, hw⟩ := ih hrest (u.concat v k)
          exact ⟨w, .step hkind hv hw⟩

section

variable (hg : g.WellFormed) (closed : g.Closed)
include hg closed

/-- Something follows every reachable nonterminal. -/
theorem exists_follows (hfirsts : g.firstSets k = .ok firsts) (reached : g.Reaches a) :
    ∃ w, Follows g firsts nullable k a w := by
  refine reached.induction (P := fun a => ∃ w, Follows g firsts nullable k a w) ⟨_, .start⟩ ?_
  rintro p mem ⟨behind, hbehind⟩ b hb
  obtain ⟨before, after, occurs⟩ := List.append_of_mem (Production.mem_symbols_of_mem_body hb)
  have hinhabited : ∀ symbol ∈ after, options firsts nullable symbol ≠ [] :=
    options_ne_nil_of_occurs hg closed hfirsts mem occurs
  obtain ⟨u, hu⟩ := exists_continues (k := k) hinhabited .empty
  have hword := (mem_firstWords_iff hinhabited).mpr hu
  cases hcomplete : u.isComplete k with
  | true => exact ⟨u, .complete mem occurs hword hcomplete⟩
  | false => exact ⟨u.concat behind k, .continued mem occurs hword hcomplete hbehind⟩

variable (pos : 0 < j) (le : j ≤ k) (hfewer : g.firstSets j = .ok fewer) (hfirsts : g.firstSets k = .ok firsts)
include pos le hfewer hfirsts

/-- The FIRST words of what stands behind a nonterminal are those under the larger bound, cut short. -/
theorem exists_mem_firstWords {p : Production} (mem : p ∈ g.productions) {before after : List Symbol}
    (occurs : p.symbols = before ++ .nonterminal a :: after) (h : v ∈ firstWords fewer nullable j after) :
    ∃ w : Lookahead, w ∈ firstWords firsts nullable k after ∧ w.truncate j = v := by
  rw [mem_firstWords_iff (options_ne_nil_of_occurs hg closed hfewer mem occurs),
    ← Lookahead.truncate_of_length_le (w := .empty) (Nat.zero_le j)] at h
  obtain ⟨w, hw, hcut⟩ := h.exists_of_truncate pos (fun a v => Grammar.exists_mem_firstSets le hfewer hfirsts) le
  exact ⟨w, (mem_firstWords_iff (options_ne_nil_of_occurs hg closed hfirsts mem occurs)).mpr hw, hcut⟩

theorem Follows.exists_of_truncate (reached : ∀ a, g.defines a = true → g.Reaches a)
    (h : Follows g fewer nullable j a v) : ∃ w, Follows g firsts nullable k a w ∧ w.truncate j = v := by
  induction h with
  | start =>
      have hlength : (Lookahead.ofTerminals [.endMarker]).length = 1 := by decide
      exact ⟨_, .start, Lookahead.truncate_of_length_le (by omega)⟩
  | @complete p before after a v mem occurs word complete =>
      obtain ⟨u, hu, rfl⟩ := exists_mem_firstWords hg closed pos le hfewer hfirsts mem occurs word
      cases hopen : u.isComplete k with
      | true => exact ⟨u, .complete mem occurs hu hopen, rfl⟩
      | false =>
          -- Only the larger bound leaves the word open; what continues it is cut off again.
          have hhead := reached p.head (hg.defines_iff.mpr ⟨p, mem, rfl⟩)
          obtain ⟨w, hw⟩ : ∃ w, Follows g firsts nullable k p.head w := exists_follows hg closed hfirsts hhead
          refine ⟨u.concat w k, .continued mem occurs hu hopen hw, ?_⟩
          rw [Lookahead.truncate_concat u w le, Lookahead.concat_of_isComplete complete]
  | @continued p before after a v v' mem occurs word incomplete _ ih =>
      obtain ⟨u, hu, rfl⟩ := exists_mem_firstWords hg closed pos le hfewer hfirsts mem occurs word
      obtain ⟨w, hw, rfl⟩ := ih
      have hopen : u.isComplete k = false := by
        rw [Bool.eq_false_iff]
        intro hcomplete
        rw [Lookahead.isComplete_truncate le hcomplete] at incomplete
        cases incomplete
      exact ⟨u.concat w k, .continued mem occurs hu hopen hw, Lookahead.truncate_concat u w le⟩

end

end Follow

namespace Grammar

variable {g : Grammar} {j k : Nat}

/-- Analyses under a smaller bound exist if those under a larger one do, and find the same words, cut short. For FOLLOW
every head has to be reachable. -/
theorem smaller_bound_cuts_words (constructed : g.Constructed) (checked : ∃ unreachable, g.check = .ok unreachable)
    (pos : 0 < j) (le : j ≤ k) :
    ((∃ fewer, g.firstSets j = .ok fewer) ↔ ∃ firsts, g.firstSets k = .ok firsts) ∧
    ∀ fewer firsts, g.firstSets j = .ok fewer → g.firstSets k = .ok firsts →
      (∀ p ∈ g.productions, ∃ w, firsts.word? p.id = some w ∧ fewer.word? p.id = some (w.truncate j)) ∧
      (∀ a v, v ∈ fewer.get a ↔ ∃ w ∈ firsts.get a, w.truncate j = v) ∧
      ((∀ a, g.defines a = true → g.Reaches a) →
        ∀ a (v : Lookahead), v ∈ (g.followSets j fewer g.nullable).get a ↔
          ∃ w ∈ (g.followSets k firsts g.nullable).get a, w.truncate j = v) := by
  have hg := constructed.wellFormed
  have closed := closed_iff_check.mpr checked
  constructor
  · rw [exists_firstSets_iff hg closed pos, exists_firstSets_iff hg closed (Nat.lt_of_lt_of_le pos le)]
  · intro fewer firsts hfewer hfirsts
    refine ⟨fun p mem => ?_, fun a v => ⟨?_, ?_⟩, fun reached a v => ⟨fun hv => ?_, ?_⟩⟩
    · obtain ⟨v, hv⟩ := exists_ofProduction_of_firstSets hfewer mem
      obtain ⟨w, hw⟩ := exists_ofProduction_of_firstSets hfirsts mem
      refine ⟨w, word?_firstSets hg hfirsts mem hw, ?_⟩
      rw [word?_firstSets hg hfewer mem hv, First.ofProduction_truncate le hv hw]
    · exact exists_mem_firstSets le hfewer hfirsts
    · rintro ⟨w, hw, rfl⟩
      exact truncate_mem_firstSets le hfewer hfirsts hw
    · obtain ⟨w, hw, hcut⟩ :=
        (mem_followSets_iff.mp hv).exists_of_truncate hg closed pos le hfewer hfirsts reached
      exact ⟨w, mem_followSets_iff.mpr hw, hcut⟩
    · rintro ⟨w, hw, rfl⟩
      exact truncate_mem_followSets hg closed pos le hfewer hfirsts hw

theorem reaches_nested {a : Nonterminal} (h : nested.defines a = true) : nested.Reaches a := by
  have hstart : nested.Derives [.nonterminal ⟨0⟩] [.nonterminal ⟨1⟩] :=
    derives_body (p := ⟨⟨1⟩, ⟨0⟩, [.nonterminal ⟨1⟩]⟩) (by decide)
  obtain ⟨p, mem, rfl⟩ := constructed_nested.wellFormed.defines_iff.mp h
  rcases mem_productions_nested.mp mem with rfl | rfl | rfl
  · exact ⟨[], [], .refl _⟩
  · exact ⟨[], [], .refl _⟩
  · exact ⟨[], [], hstart⟩

theorem one_cuts_words_of_nested :
    ∃ fewer firsts, nested.firstSets 1 = .ok fewer ∧ nested.firstSets 3 = .ok firsts ∧
      (∀ a v, v ∈ fewer.get a ↔ ∃ w ∈ firsts.get a, w.truncate 1 = v) ∧
      ∀ a (v : Lookahead), v ∈ (nested.followSets 1 fewer nested.nullable).get a ↔
        ∃ w ∈ (nested.followSets 3 firsts nested.nullable).get a, w.truncate 1 = v := by
  obtain ⟨hexists, hcuts⟩ :=
    smaller_bound_cuts_words constructed_nested ⟨[], by cbv⟩ (by decide : 0 < 1) (by decide : 1 ≤ 3)
  obtain ⟨fewer, hfewer⟩ : ∃ fewer, nested.firstSets 1 = .ok fewer := ⟨_, by cbv⟩
  obtain ⟨firsts, hfirsts⟩ := hexists.mp ⟨fewer, hfewer⟩
  obtain ⟨_, hfirst, hfollow⟩ := hcuts fewer firsts hfewer hfirsts
  exact ⟨fewer, firsts, hfewer, hfirsts, hfirst, hfollow fun _ => reaches_nested⟩

end Grammar

end PredictiveParsing
