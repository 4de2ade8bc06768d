import PredictiveParsing.Proofs.Grammar.Pruning

/-! # Unreachable productions and FOLLOW

FOLLOW looks at the productions of all nonterminals, also of those that cannot be reached. What these put behind a
nonterminal does not wait for anything to follow their head if it is a complete word, and from there it strays into the
FOLLOW sets of whatever that nonterminal is rewritten to. So the FOLLOW sets are those of the pruned grammar together
with the words that stray, and unreachable productions do not disturb them as long as they only put words behind
nonterminals that are not complete. -/

namespace PredictiveParsing

open Std

namespace Follow

variable {g g' : Grammar} {firsts kept : FirstSets} {nullable : ExtTreeSet Nonterminal} {k : Nat} {a : Nonterminal}
  {w : Lookahead}

/-- The words that come from a complete word in a production that cannot be reached. -/
inductive Strays (g : Grammar) (firsts : FirstSets) (nullable : ExtTreeSet Nonterminal) (k : Nat) :
    Nonterminal → Lookahead → Prop where
  | complete {p : Production} {before after : List Symbol} {a : Nonterminal} {u : Lookahead}
      (mem : p ∈ g.productions) (unreachable : ¬g.Reaches p.head)
      (occurs : p.symbols = before ++ .nonterminal a :: after) (word : u ∈ firstWords firsts nullable k after)
      (complete : u.isComplete k = true) : Strays g firsts nullable k a u
  | continued {p : Production} {before after : List Symbol} {a : Nonterminal} {u v : Lookahead}
      (mem : p ∈ g.productions) (occurs : p.symbols = before ++ .nonterminal a :: after)
      (word : u ∈ firstWords firsts nullable k after) (incomplete : u.isComplete k = false)
      (behind : Strays g firsts nullable k p.head v) : Strays g firsts nullable k a (u.concat v k)

theorem Strays.follows (h : Strays g firsts nullable k a w) : Follows g firsts nullable k a w := by
  induction h with
  | complete mem _ occurs word complete => exact .complete mem occurs word complete
  | continued mem occurs word incomplete _ ih => exact .continued mem occurs word incomplete ih

/-- No production that cannot be reached puts a complete word behind a nonterminal. -/
def Confined (g : Grammar) (firsts : FirstSets) (nullable : ExtTreeSet Nonterminal) (k : Nat) : Prop :=
  ∀ p ∈ g.productions, ¬g.Reaches p.head → ∀ before a after, p.symbols = before ++ .nonterminal a :: after →
    ∀ u ∈ firstWords firsts nullable k after, u.isComplete k = false

/-- Whether this is so can be found by looking at the occurrences of nonterminals. -/
theorem confined_iff (hg : g.WellFormed) : Confined g firsts nullable k ↔
    ∀ p ∈ g.productions, p.head ∉ g.reachable → ∀ o ∈ occurrencesIn firsts nullable k p.head p.symbols,
      ∀ u ∈ o.trailing, u.isComplete k = false := by
  unfold Confined
  refine forall₂_congr fun p _ => ?_
  rw [Grammar.mem_reachable_iff hg]
  refine forall_congr' fun _ => ?_
  constructor
  · intro h o ho u hu
    obtain ⟨before, a, after, occurs, rfl⟩ := mem_occurrencesIn_iff.mp ho
    exact h before a after occurs u (ExtTreeSet.mem_toList.mp hu)
  · intro h before a after occurs u hu
    exact h _ (mem_occurrencesIn_iff.mpr ⟨before, a, after, occurs, rfl⟩) u (ExtTreeSet.mem_toList.mpr hu)

theorem Confined.not_strays (h : Confined g firsts nullable k) : ¬Strays g firsts nullable k a w := by
  intro hstrays
  induction hstrays with
  | complete mem unreachable occurs word complete =>
      rw [h _ mem unreachable _ _ _ occurs _ word] at complete
      cases complete
  | continued _ _ _ _ _ ih => exact ih

section

variable (hg : g.WellFormed) (h : g.Pruned g')
include hg h

/-- In the pruned grammar something only follows reachable nonterminals. -/
theorem Follows.reaches_of_pruned (hfollows : Follows g' kept nullable k a w) : g.Reaches a := by
  have hoccurs : ∀ {p : Production} {before after : List Symbol} {a : Nonterminal}, p ∈ g'.productions →
      p.symbols = before ++ .nonterminal a :: after → g.Reaches a := by
    intro p before after a mem occurs
    obtain ⟨hmem, hhead⟩ := (h.mem_iff hg).mp mem
    exact hhead.of_mem_symbols hg hmem (Production.mem_symbols_of_occurs occurs)
  cases hfollows with
  | start =>
      rw [h.start]
      exact g.reaches_start
  | complete mem occurs => exact hoccurs mem occurs
  | continued mem occurs => exact hoccurs mem occurs

variable (hfirsts : g.firstSets k = .ok firsts) (hkept : g'.firstSets k = .ok kept)
include hfirsts hkept

/-- What follows a nonterminal follows it in the pruned grammar or is a word that strays. -/
theorem Follows.of_pruned_or_strays (hfollows : Follows g firsts g.nullable k a w) :
    Follows g' kept g'.nullable k a w ∨ Strays g firsts g.nullable k a w := by
  have hagrees := h.agreesOn hg
  induction hfollows with
  | start =>
      rw [← h.start]
      exact Or.inl .start
  | @complete p before after a u mem occurs word complete =>
      by_cases hhead : g.Reaches p.head
      · rw [hagrees.firstWords_eq_of_occurs hg h.constructed.wellFormed hfirsts hkept mem hhead occurs] at word
        exact Or.inl (.complete ((hagrees.mem_iff p hhead).mp mem) occurs word complete)
      · exact Or.inr (.complete mem hhead occurs word complete)
  | @continued p before after a u v mem occurs word incomplete _ ih =>
      rcases ih with hbehind | hbehind
      · have hhead : g.Reaches p.head := hbehind.reaches_of_pruned hg h
        rw [hagrees.firstWords_eq_of_occurs hg h.constructed.wellFormed hfirsts hkept mem hhead occurs] at word
        exact Or.inl (.continued ((hagrees.mem_iff p hhead).mp mem) occurs word incomplete hbehind)
      · exact Or.inr (.continued mem occurs word incomplete hbehind)

theorem follows_iff : Follows g firsts g.nullable k a w ↔
    Follows g' kept g'.nullable k a w ∨ Strays g firsts g.nullable k a w := by
  constructor
  · exact fun hfollows => hfollows.of_pruned_or_strays hg h hfirsts hkept
  · rintro (hpruned | hstrays)
    · have hfull : ∀ p ∈ g'.productions, g.Reaches p.head := fun p mem => ((h.mem_iff hg).mp mem).2
      exact (h.agreesOn hg).symm.follows h.constructed.wellFormed hg hkept hfirsts h.start hfull hpruned
    · exact hstrays.follows

end

end Follow

namespace Grammar

variable {g : Grammar} {k : Nat} {firsts : FirstSets}

/-- The FOLLOW sets are those of the pruned grammar, in which nothing follows unreachable nonterminals, together with
the words that stray from unreachable productions. If no such production puts a complete word behind a nonterminal, the
FOLLOW sets of unreachable nonterminals are empty, and those of reachable ones stay as they are when the grammar is
pruned. -/
theorem follow_without_unreachable (constructed : g.Constructed) (checked : ∃ unreachable, g.check = .ok unreachable)
    (pos : 0 < k) (hfirsts : g.firstSets k = .ok firsts) :
    ∃ pruned kept, g.prune = .ok pruned ∧ (∀ p, p ∈ pruned.productions ↔ p ∈ g.productions ∧ g.Reaches p.head) ∧
      pruned.check = .ok [] ∧ pruned.firstSets k = .ok kept ∧
      (∀ a, ¬g.Reaches a → (pruned.followSets k kept pruned.nullable).get a = ∅) ∧
      (∀ a w, w ∈ (g.followSets k firsts g.nullable).get a ↔
        w ∈ (pruned.followSets k kept pruned.nullable).get a ∨ Follow.Strays g firsts g.nullable k a w) ∧
      (Follow.Confined g firsts g.nullable k →
        (∀ a, ¬g.Reaches a → (g.followSets k firsts g.nullable).get a = ∅) ∧
        ∀ a, g.Reaches a →
          (g.followSets k firsts g.nullable).get a = (pruned.followSets k kept pruned.nullable).get a) := by
  have hg := constructed.wellFormed
  have closed := closed_iff_check.mpr checked
  obtain ⟨pruned, hprune, h⟩ := exists_prune constructed
  obtain ⟨kept, hkept⟩ := h.exists_firstSets hg closed pos hfirsts
  have hempty : ∀ a, ¬g.Reaches a → (pruned.followSets k kept pruned.nullable).get a = ∅ := by
    intro a hunreachable
    apply ExtTreeSet.eq_empty_iff_forall_not_mem.mpr
    intro w hw
    exact hunreachable ((mem_followSets_iff.mp hw).reaches_of_pruned hg h)
  have hfollows : ∀ a w, w ∈ (g.followSets k firsts g.nullable).get a ↔
      w ∈ (pruned.followSets k kept pruned.nullable).get a ∨ Follow.Strays g firsts g.nullable k a w := by
    intro a w
    rw [mem_followSets_iff, mem_followSets_iff]
    exact Follow.follows_iff hg h hfirsts hkept
  refine ⟨pruned, kept, hprune, fun _ => h.mem_iff hg, h.check_eq hg closed, hkept, hempty, hfollows, ?_⟩
  intro hconfined
  have hsame : ∀ a, (g.followSets k firsts g.nullable).get a = (pruned.followSets k kept pruned.nullable).get a := by
    intro a
    ext w
    rw [hfollows]
    exact or_iff_left hconfined.not_strays
  exact ⟨fun a hunreachable => (hsame a).trans (hempty a hunreachable), fun a _ => hsame a⟩

/-- The grammar of a single terminal, with productions of unreachable nonterminals in which other ones are followed by
a terminal. -/
def stranded : Grammar where
  vocabulary := ⟨4, 3⟩
  start := ⟨0⟩
  arena := #[⟨⟨0⟩, ⟨0⟩, [.terminal ⟨2⟩]⟩, ⟨⟨1⟩, ⟨1⟩, [.nonterminal ⟨2⟩, .terminal ⟨3⟩]⟩,
    ⟨⟨2⟩, ⟨2⟩, [.nonterminal ⟨0⟩, .terminal ⟨3⟩]⟩]
  index := .ofList [((⟨0⟩ : ProductionId), 0), (⟨1⟩, 1), (⟨2⟩, 2)]
  rules := .ofList [((⟨0⟩ : Nonterminal), #[0]), (⟨1⟩, #[1]), (⟨2⟩, #[2])]

theorem build_stranded :
    build ⟨4, 3⟩ ⟨0⟩
      [⟨⟨0⟩, [⟨⟨0⟩, [.terminal ⟨2⟩]⟩]⟩, ⟨⟨1⟩, [⟨⟨1⟩, [.nonterminal ⟨2⟩, .terminal ⟨3⟩]⟩]⟩,
        ⟨⟨2⟩, [⟨⟨2⟩, [.nonterminal ⟨0⟩, .terminal ⟨3⟩]⟩]⟩] = .ok stranded := by cbv

theorem reaches_stranded_iff {a : Nonterminal} : stranded.Reaches a ↔ a = ⟨0⟩ := by
  rw [← mem_reachable_iff (constructed_of_build build_stranded).wellFormed, ← ExtTreeSet.mem_toList]
  have hlist : stranded.reachable.toList = [⟨0⟩] := by cbv
  rw [hlist, List.mem_singleton]

/-- The grammar that pruning leaves. -/
def strandedPruned : Grammar where
  vocabulary := ⟨4, 3⟩
  start := ⟨0⟩
  arena := #[⟨⟨0⟩, ⟨0⟩, [.terminal ⟨2⟩]⟩]
  index := .ofList [((⟨0⟩ : ProductionId), 0)]
  rules := .ofList [((⟨0⟩ : Nonterminal), #[0])]

theorem prune_stranded : stranded.prune = .ok strandedPruned := by cbv

/-- The terminal that an unreachable production puts behind a nonterminal follows it, whether it is reachable or not. -/
theorem stranded_disturbs_follow :
    stranded.Constructed ∧ stranded.check = .ok [⟨1⟩, ⟨2⟩] ∧ stranded.prune = .ok strandedPruned ∧
      ¬stranded.Reaches ⟨2⟩ ∧ stranded.Reaches ⟨0⟩ ∧
      ∃ firsts kept, stranded.firstSets 1 = .ok firsts ∧ strandedPruned.firstSets 1 = .ok kept ∧
        (stranded.followSets 1 firsts stranded.nullable).contains ⟨2⟩ ⟨[⟨3⟩]⟩ = true ∧
        (stranded.followSets 1 firsts stranded.nullable).contains ⟨0⟩ ⟨[⟨3⟩]⟩ = true ∧
        (strandedPruned.followSets 1 kept strandedPruned.nullable).contains ⟨0⟩ ⟨[⟨3⟩]⟩ = false := by
  refine ⟨constructed_of_build build_stranded, by cbv, prune_stranded, ?_, reaches_stranded_iff.mpr rfl,
    _, _, by cbv, by cbv, by cbv, by cbv, by cbv⟩
  rw [reaches_stranded_iff]
  decide

/-- A lookahead of one terminal lets the terminal stray, one of two terminals does not. -/
theorem stranded_follow_without_unreachable :
    (∃ firsts, stranded.firstSets 1 = .ok firsts ∧
      Follow.Strays stranded firsts stranded.nullable 1 ⟨2⟩ ⟨[⟨3⟩]⟩) ∧
    ∃ firsts, stranded.firstSets 2 = .ok firsts ∧ (stranded.followSets 2 firsts stranded.nullable).get ⟨2⟩ = ∅ := by
  have hconstructed := constructed_of_build build_stranded
  have hunreachable : ¬stranded.Reaches ⟨2⟩ := by
    rw [reaches_stranded_iff]
    decide
  constructor
  · obtain ⟨firsts, hfirsts, hmem⟩ : ∃ firsts, stranded.firstSets 1 = .ok firsts ∧
        ⟨[⟨3⟩]⟩ ∈ (stranded.followSets 1 firsts stranded.nullable).get ⟨2⟩ := ⟨_, by cbv, by cbv⟩
    obtain ⟨_, _, _, _, _, _, hempty, hfollows, _⟩ :=
      follow_without_unreachable hconstructed ⟨_, by cbv⟩ (by decide) hfirsts
    rcases (hfollows ⟨2⟩ _).mp hmem with hpruned | hstrays
    · rw [hempty ⟨2⟩ hunreachable] at hpruned
      exact absurd hpruned ExtTreeSet.not_mem_empty
    · exact ⟨firsts, hfirsts, hstrays⟩
  · obtain ⟨firsts, hfirsts, hincomplete⟩ : ∃ firsts, stranded.firstSets 2 = .ok firsts ∧
        ∀ p ∈ stranded.productions, p.head ∉ stranded.reachable →
          ∀ o ∈ Follow.occurrencesIn firsts stranded.nullable 2 p.head p.symbols,
            ∀ u ∈ o.trailing, u.isComplete 2 = false := ⟨_, by cbv, of_decide_eq_true (by cbv)⟩
    obtain ⟨_, _, _, _, _, _, _, _, hconfined⟩ :=
      follow_without_unreachable hconstructed ⟨_, by cbv⟩ (by decide) hfirsts
    have hundisturbed := hconfined ((Follow.confined_iff hconstructed.wellFormed).mpr hincomplete)
    exact ⟨firsts, hfirsts, hundisturbed.1 ⟨2⟩ hunreachable⟩

end Grammar

end PredictiveParsing
