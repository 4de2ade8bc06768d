import PredictiveParsing.Proofs.First.Existence
import PredictiveParsing.Proofs.Follow.Rules

/-! # FOLLOW under a smaller bound

What follows a nonterminal under a bound follows it, cut short, under every smaller bound. The rules carry over one by
one: a word that the smaller bound completes is no longer continued by what follows the head, and a word that it
leaves open has not been cut. -/

namespace PredictiveParsing

open Std

namespace Follow

variable {g : Grammar} {nullable : ExtTreeSet Nonterminal} {j k : Nat} {fewer firsts : FirstSets} {w : Lookahead}

section

variable (pos : 0 < j) (cut : ∀ a, ∀ w ∈ firsts.get a, w.truncate j ∈ fewer.get a)
include pos cut

theorem truncate_mem_options {symbol : Symbol} (h : w ∈ options firsts nullable symbol) :
    w.truncate j ∈ options fewer nullable symbol := by
  cases symbol with
  | terminal t =>
      have hlength : (Lookahead.ofTerminals [t]).length ≤ 1 := Lookahead.length_ofTerminals_le [t]
      rw [List.mem_singleton.mp h, Lookahead.truncate_of_length_le (by omega)]
      exact List.mem_singleton_self _
  | nonterminal a =>
      rcases mem_options_nonterminal.mp h with h | ⟨hnullable, rfl⟩
      · exact mem_options_nonterminal.mpr (Or.inl (cut a w h))
      · exact mem_options_nonterminal.mpr (Or.inr ⟨hnullable, Lookahead.truncate_of_length_le (Nat.zero_le j)⟩)

/-- The continuation of a word that is cut short is the continuation cut short. -/
theorem Continues.truncate (le : j ≤ k) {u : Lookahead} {symbols : List Symbol}
    (h : Continues firsts nullable k u symbols w) :
    Continues fewer nullable j (u.truncate j) symbols (w.truncate j) := by
  induction h with
  | stop u => exact .stop _
  | epsilon _ ih => exact .epsilon ih
  | @step u v w symbol rest plain option later ih =>
      rw [Lookahead.truncate_concat u v le] at ih
      exact .step plain (truncate_mem_options pos cut option) ih

end

section

variable (hg : g.WellFormed) (closed : g.Closed) (pos : 0 < j) (le : j ≤ k) (hfewer : g.firstSets j = .ok fewer)
  (hfirsts : g.firstSets k = .ok firsts)
include hg closed pos le hfewer hfirsts

/-- The FIRST words of what stands behind a nonterminal in a right-hand side are cut short. -/
theorem truncate_mem_firstWords {p : Production} (mem : p ∈ g.productions) {before after : List Symbol}
    (occurs : p.symbols = before ++ after) (h : w ∈ firstWords firsts nullable k after) :
    w.truncate j ∈ firstWords fewer nullable j after := by
  have hdefined : ∀ symbol ∈ after, ∀ a, symbol = .nonterminal a → g.defines a = true := by
    rintro symbol hsymbol a rfl
    exact closed.defines mem (occurs ▸ List.mem_append_right before hsymbol)
  have hcontinues := (mem_firstWords_iff fun symbol hsymbol => options_ne_nil hg hfirsts (hdefined symbol hsymbol)).mp h
  rw [mem_firstWords_iff fun symbol hsymbol => options_ne_nil hg hfewer (hdefined symbol hsymbol)]
  have hcut := hcontinues.truncate pos (fun a w hw => Grammar.truncate_mem_firstSets le hfewer hfirsts hw) le
  rwa [Lookahead.truncate_of_length_le (Nat.zero_le j)] at hcut

theorem Follows.truncate {a : Nonterminal} (h : Follows g firsts nullable k a w) :
    Follows g fewer nullable j a (w.truncate j) := by
  induction h with
  | start =>
      have hlength : (Lookahead.ofTerminals [.endMarker]).length = 1 := by decide
      rw [Lookahead.truncate_of_length_le (by omega)]
      exact .start
  | @complete p before after a u mem occurs word complete =>
      have hword := truncate_mem_firstWords hg closed pos le hfewer hfirsts mem
        (occurs.trans (List.append_cons before _ after)) word
      exact .complete mem occurs hword (Lookahead.isComplete_truncate le complete)
  | @continued p before after a u v mem occurs word incomplete _ ih =>
      have hword := truncate_mem_firstWords hg closed pos le hfewer hfirsts mem
        (occurs.trans (List.append_cons before _ after)) word
      rw [Lookahead.truncate_concat u v le]
      cases hcut : (u.truncate j).isComplete j with
      | true =>
          rw [Lookahead.concat_of_isComplete hcut]
          exact .complete mem occurs hword hcut
      | false => exact .continued mem occurs hword hcut ih

end

end Follow

namespace Grammar

variable {g : Grammar} {j k : Nat} {fewer firsts : FirstSets}

/-- A smaller bound cuts what follows a nonterminal short. -/
theorem truncate_mem_followSets (hg : g.WellFormed) (closed : g.Closed) (pos : 0 < j) (le : j ≤ k)
    (hfewer : g.firstSets j = .ok fewer) (hfirsts : g.firstSets k = .ok firsts) {a : Nonterminal} {w : Lookahead}
    (hw : w ∈ (g.followSets k firsts g.nullable).get a) : w.truncate j ∈ (g.followSets j fewer g.nullable).get a := by
  rw [mem_followSets_iff] at hw ⊢
  exact hw.truncate hg closed pos le hfewer hfirsts

end Grammar

end PredictiveParsing
