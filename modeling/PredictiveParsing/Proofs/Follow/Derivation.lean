import PredictiveParsing.Proofs.First.Derivation
import PredictiveParsing.Proofs.Follow.Lifting
import PredictiveParsing.Proofs.Nullable.Derivation

/-! # What follows really follows

A string of symbols begins with every word that it makes of the empty one. Where all heads can be reached, each rule of
FOLLOW therefore goes along with a derivation: a nonterminal of a right-hand side comes up wherever the head does, and
behind it what stands behind it on the right is derived as far as the word goes, or in front of what follows the head.
So every word that follows a nonterminal stands behind it in a string that is derived from the start symbol and the
end marker. -/

namespace PredictiveParsing

open Std

namespace Follow

variable {g : Grammar} {k : Nat} {firsts : FirstSets} {a : Nonterminal} {symbol : Symbol}
  {x y before after : List Symbol} {u w : Lookahead} {p : Production}

/-- What stands behind a nonterminal on the right of a production can be replaced by what is derived from it wherever
the head comes up. -/
theorem derives_behind (hg : g.WellFormed) (mem : p ∈ g.productions)
    (occurs : p.symbols = before ++ .nonterminal a :: after) {z later : List Symbol}
    (derives : g.Derives z (x ++ .nonterminal p.head :: y)) (behind : g.Derives after later) :
    g.Derives z ((x ++ before) ++ .nonterminal a :: (later ++ y)) :=
  calc
    g.Derives z ((x ++ before) ++ .nonterminal a :: (after ++ y)) := Grammar.derives_occurrence hg mem occurs derives
    g.Derives _ ((x ++ before) ++ .nonterminal a :: (later ++ y)) :=
      ((behind.append_right y).append_left [.nonterminal a]).append_left (x ++ before)

section

variable (hg : g.WellFormed) (pos : 0 < k) (hfirsts : g.firstSets k = .ok firsts)
include hg pos hfirsts

/-- A symbol begins with what it can put in its place. -/
theorem beginsWith_of_mem_options (plain : symbol ≠ .terminal .epsilon) (h : w ∈ options firsts g.nullable symbol) :
    g.BeginsWith k [symbol] w := by
  cases symbol with
  | terminal t =>
      have ht : t ≠ .epsilon := fun heq => plain (congrArg Symbol.terminal heq)
      rw [List.mem_singleton.mp h, Lookahead.ofTerminals_singleton ht]
      have hwithin : Lookahead.Within k ⟨[t]⟩ := by
        rw [← Lookahead.ofTerminals_singleton ht]
        exact ⟨Lookahead.wellFormed_ofTerminals [t], (Lookahead.length_ofTerminals_le [t]).trans pos⟩
      exact ⟨hwithin, .of_derives (.refl [.terminal t])⟩
  | nonterminal a =>
      rcases mem_options_nonterminal.mp h with hfirst | ⟨hnullable, rfl⟩
      · exact Grammar.beginsWith_of_mem_firsts hg hfirsts hfirst
      · have hvanishes := Grammar.vanishing_nullable hg a (ExtTreeSet.contains_iff_mem.mp hnullable)
        exact ⟨Lookahead.within_empty k, .of_derives hvanishes⟩

/-- What a string begins with is continued to what it begins with together with the symbols behind it. -/
theorem Continues.beginsWith (plain : ∀ symbol ∈ y, symbol ≠ .terminal .epsilon)
    (h : Continues firsts g.nullable k u y w) (begins : g.BeginsWith k x u) : g.BeginsWith k (x ++ y) w := by
  induction h generalizing x with
  | stop u => rwa [List.append_nil]
  | epsilon => exact absurd rfl (List.forall_mem_cons.mp plain).1
  | @step u v w symbol rest _ option _ ih =>
      obtain ⟨hsymbol, hrest⟩ := List.forall_mem_cons.mp plain
      have hv : g.BeginsWith k [symbol] v := beginsWith_of_mem_options hg pos hfirsts hsymbol option
      rw [List.append_cons]
      exact ih hrest (begins.concat hv)

variable (closed : g.Closed)
include closed

/-- What stands behind a nonterminal on the right of a production begins with its FIRST words. -/
theorem beginsWith_of_mem_firstWords (mem : p ∈ g.productions) (occurs : p.symbols = before ++ .nonterminal a :: after)
    (h : w ∈ firstWords firsts g.nullable k after) : g.BeginsWith k after w := by
  have hinhabited : ∀ symbol ∈ after, options firsts g.nullable symbol ≠ [] :=
    options_ne_nil_of_occurs hg closed hfirsts mem occurs
  have hplain : ∀ symbol ∈ after, symbol ≠ .terminal .epsilon := by
    intro symbol hsymbol
    have hwellFormed := hg.wellFormed p mem
    have hkind := hwellFormed.isEpsilon_of_nonterminal (Production.mem_symbols_of_occurs occurs)
    exact hwellFormed.symbols_ne_epsilon hkind symbol (Production.mem_symbols_of_mem_behind occurs hsymbol)
  have hempty : g.BeginsWith k [] .empty := ⟨Lookahead.within_empty k, .of_derives (.refl [])⟩
  exact ((mem_firstWords_iff hinhabited).mp h).beginsWith hg pos hfirsts hplain hempty

/-- Every word that follows a nonterminal stands behind it in a string that is derived from the start symbol and the
end marker. -/
theorem Follows.exists_derives (reached : ∀ a, g.defines a = true → g.Reaches a)
    (h : Follows g firsts g.nullable k a w) :
    ∃ x y, g.Derives [.nonterminal g.start, .terminal .endMarker]
      (x ++ .nonterminal a :: (w.terminals.map .terminal ++ y)) := by
  induction h with
  | start => exact ⟨[], [], .refl _⟩
  | @complete p before after a u mem occurs word complete =>
      obtain ⟨x, y, hhead⟩ := reached p.head (hg.defines_iff.mpr ⟨p, mem, rfl⟩)
      have hstart := hhead.append_right [.terminal .endMarker]
      rw [List.append_assoc, List.cons_append] at hstart
      obtain ⟨_, rest, hrest, _⟩ := beginsWith_of_mem_firstWords hg pos hfirsts closed mem occurs word
      refine ⟨x ++ before, rest ++ (y ++ [.terminal .endMarker]), ?_⟩
      rw [← List.append_assoc _ rest]
      exact derives_behind hg mem occurs hstart hrest
  | @continued p before after a u v mem occurs word incomplete _ ih =>
      obtain ⟨x, y, hhead⟩ := ih
      -- A word that is not complete is all that is derived, so the word of the head comes right behind it.
      have hexact := (beginsWith_of_mem_firstWords hg pos hfirsts closed mem occurs word).derives_exactly incomplete
      have hbehind := derives_behind hg mem occurs hhead hexact
      obtain ⟨s, t, hconcat, hsplit, _⟩ := Lookahead.exists_concat_eq u v k
      have hwords : (u.terminals.map Symbol.terminal) ++ (v.terminals.map .terminal ++ y) =
          (u.concat v k).terminals.map .terminal ++ (t.map .terminal ++ y) := by
        rw [hconcat, hsplit, List.map_append, List.map_append, List.append_assoc, List.append_assoc]
      rw [hwords] at hbehind
      exact ⟨_, _, hbehind⟩

end

end Follow

namespace Grammar

variable {g : Grammar} {k : Nat} {firsts : FirstSets}

/-- If every nonterminal with productions can be reached, what FOLLOW holds of a nonterminal really stands behind it in
what is derived from the start symbol with the end marker behind it. -/
theorem follow_really_follows (constructed : g.Constructed) (checked : ∃ unreachable, g.check = .ok unreachable)
    (reached : ∀ a, g.defines a = true → g.Reaches a) (pos : 0 < k) (hfirsts : g.firstSets k = .ok firsts)
    (a : Nonterminal) (w : Lookahead) (hw : w ∈ (g.followSets k firsts g.nullable).get a) :
    ∃ x y, g.Derives [.nonterminal g.start, .terminal .endMarker]
      (x ++ .nonterminal a :: (w.terminals.map .terminal ++ y)) := by
  have closed := closed_iff_check.mpr checked
  exact (mem_followSets_iff.mp hw).exists_derives constructed.wellFormed pos hfirsts closed reached

/-- Two closing terminals follow the inner nonterminal. -/
theorem nested_follow_really_follows :
    ∃ x y, nested.Derives [.nonterminal ⟨0⟩, .terminal .endMarker]
      (x ++ .nonterminal ⟨1⟩ :: .terminal ⟨3⟩ :: .terminal ⟨3⟩ :: y) := by
  obtain ⟨firsts, hfirsts, hmem⟩ : ∃ firsts, nested.firstSets 2 = .ok firsts ∧
      ⟨[⟨3⟩, ⟨3⟩]⟩ ∈ (nested.followSets 2 firsts nested.nullable).get ⟨1⟩ := ⟨_, by cbv, by cbv⟩
  exact follow_really_follows constructed_nested ⟨[], by cbv⟩ (fun _ => reaches_nested) (by decide) hfirsts ⟨1⟩ _ hmem

end Grammar

end PredictiveParsing
