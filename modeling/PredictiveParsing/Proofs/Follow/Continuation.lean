import PredictiveParsing.Proofs.Follow
import PredictiveParsing.Proofs.Grammar.Closure

/-! # Continuations

A word is continued through a string of symbols by one word at each symbol. The set of words that a string of symbols
makes out of given ones holds exactly their continuations: that it is not computed any further once all words are
complete makes no difference, because a complete word is its own continuation through every string. -/

namespace PredictiveParsing

open Std

namespace Follow

variable {firsts : FirstSets} {nullable : ExtTreeSet Nonterminal} {k : Nat} {u v w : Lookahead} {symbol : Symbol}
  {symbols : List Symbol}

/-- At each symbol a word is continued by one of the words that the symbol can put in its place. -/
inductive Continues (firsts : FirstSets) (nullable : ExtTreeSet Nonterminal) (k : Nat) :
    Lookahead → List Symbol → Lookahead → Prop where
  | stop (u : Lookahead) : Continues firsts nullable k u [] u
  | epsilon {u w : Lookahead} {rest : List Symbol} (later : Continues firsts nullable k u rest w) :
      Continues firsts nullable k u (.terminal .epsilon :: rest) w
  | step {u v w : Lookahead} {symbol : Symbol} {rest : List Symbol} (plain : symbol.isEpsilon = false)
      (option : v ∈ options firsts nullable symbol) (later : Continues firsts nullable k (u.concat v k) rest w) :
      Continues firsts nullable k u (symbol :: rest) w

/-- A complete word is not continued to any other one. -/
theorem Continues.eq_of_isComplete (h : Continues firsts nullable k u symbols w) (complete : u.isComplete k = true) :
    w = u := by
  induction h with
  | stop => rfl
  | epsilon _ ih => exact ih complete
  | @step u v w symbol rest plain option later ih =>
      rw [Lookahead.concat_of_isComplete complete] at ih
      exact ih complete

theorem Continues.of_isComplete (inhabited : ∀ symbol ∈ symbols, options firsts nullable symbol ≠ [])
    (complete : u.isComplete k = true) : Continues firsts nullable k u symbols u := by
  induction symbols with
  | nil => exact .stop u
  | cons symbol rest ih =>
      obtain ⟨hsymbol, hrest⟩ := List.forall_mem_cons.mp inhabited
      cases hkind : symbol.isEpsilon with
      | true =>
          rw [Symbol.isEpsilon_iff.mp hkind]
          exact .epsilon (ih hrest)
      | false =>
          obtain ⟨v, hv⟩ := List.exists_mem_of_ne_nil _ hsymbol
          refine .step hkind hv ?_
          rw [Lookahead.concat_of_isComplete complete]
          exact ih hrest

theorem mem_continued_iff (inhabited : ∀ symbol ∈ symbols, options firsts nullable symbol ≠ [])
    {words : ExtTreeSet Lookahead} :
    w ∈ continued firsts nullable k words symbols ↔ ∃ u : Lookahead, u ∈ words ∧ Continues firsts nullable k u symbols w := by
  induction symbols generalizing words with
  | nil =>
      constructor
      · intro hw
        exact ⟨w, hw, .stop w⟩
      · rintro ⟨u, hu, h⟩
        cases h
        exact hu
  | cons symbol rest ih =>
      obtain ⟨hsymbol, hrest⟩ := List.forall_mem_cons.mp inhabited
      unfold continued
      split
      · rename_i hall
        have hcomplete : ∀ u : Lookahead, u ∈ words → u.isComplete k = true := by
          intro u hu
          exact List.all_eq_true.mp hall u (ExtTreeSet.mem_toList.mpr hu)
        constructor
        · intro hw
          exact ⟨w, hw, .of_isComplete inhabited (hcomplete w hw)⟩
        · rintro ⟨u, hu, h⟩
          rw [h.eq_of_isComplete (hcomplete u hu)]
          exact hu
      · split
        · rename_i hkind
          rw [ih hrest, Symbol.isEpsilon_iff.mp hkind]
          refine exists_congr fun u => and_congr_right fun _ => ⟨.epsilon, fun h => ?_⟩
          cases h with
          | epsilon later => exact later
          | step plain => cases plain
        · rename_i hkind
          rw [ih hrest]
          constructor
          · rintro ⟨_, hconcat, h⟩
            obtain ⟨u, hu, v, hv, rfl⟩ := mem_combine.mp hconcat
            exact ⟨u, hu, .step (Bool.eq_false_iff.mpr hkind) hv h⟩
          · rintro ⟨u, hu, h⟩
            cases h with
            | epsilon => exact absurd rfl hkind
            | step _ option later => exact ⟨_, mem_combine.mpr ⟨u, hu, _, option, rfl⟩, later⟩

theorem mem_firstWords_iff (inhabited : ∀ symbol ∈ symbols, options firsts nullable symbol ≠ []) :
    w ∈ firstWords firsts nullable k symbols ↔ Continues firsts nullable k .empty symbols w := by
  rw [firstWords, mem_continued_iff inhabited]
  simp

theorem options_ne_nil {g : Grammar} (hg : g.WellFormed) (h : g.firstSets k = .ok firsts)
    (defined : ∀ a, symbol = .nonterminal a → g.defines a = true) : options firsts nullable symbol ≠ [] := by
  cases symbol with
  | terminal t => exact List.cons_ne_nil _ _
  | nonterminal a =>
      obtain ⟨p, mem, rfl⟩ := hg.defines_iff.mp (defined a rfl)
      obtain ⟨w, hw⟩ := Grammar.exists_ofProduction_of_firstSets h mem
      have hfirst : w ∈ firsts.get p.head := (Grammar.mem_get_firstSets h).mpr ⟨p, mem, rfl, hw⟩
      exact List.ne_nil_of_mem (mem_options_nonterminal.mpr (Or.inl hfirst))

/-- The symbols behind a nonterminal on the right of a production have something to put in their place. -/
theorem options_ne_nil_of_occurs {g : Grammar} (hg : g.WellFormed) (closed : g.Closed)
    (hfirsts : g.firstSets k = .ok firsts) {p : Production} (mem : p ∈ g.productions) {a : Nonterminal}
    {before after : List Symbol} (occurs : p.symbols = before ++ .nonterminal a :: after) :
    ∀ symbol ∈ after, options firsts nullable symbol ≠ [] := by
  intro symbol hsymbol
  refine options_ne_nil hg hfirsts fun b hb => closed.defines mem ?_
  rw [← hb]
  exact Production.mem_symbols_of_mem_behind occurs hsymbol

/-- Every occurrence of a nonterminal in a right-hand side is found with what stands behind it. -/
theorem mem_occurrencesIn_iff {head : Nonterminal} {o : Occurrence} :
    o ∈ occurrencesIn firsts nullable k head symbols ↔
      ∃ before a after, symbols = before ++ .nonterminal a :: after ∧
        o = ⟨head, a, (firstWords firsts nullable k after).toList⟩ := by
  induction symbols with
  | nil => simp [occurrencesIn]
  | cons symbol rest ih =>
      cases symbol with
      | terminal t =>
          rw [occurrencesIn, ih]
          constructor
          · rintro ⟨before, a, after, rfl, rfl⟩
            exact ⟨.terminal t :: before, a, after, rfl, rfl⟩
          · rintro ⟨before, a, after, hsplit, rfl⟩
            rcases List.cons_eq_append_iff.mp hsplit with ⟨_, heq⟩ | ⟨before, rfl, rfl⟩
            · cases heq
            · exact ⟨before, a, after, rfl, rfl⟩
      | nonterminal b =>
          rw [occurrencesIn, List.mem_cons, ih]
          constructor
          · rintro (rfl | ⟨before, a, after, rfl, rfl⟩)
            · exact ⟨[], b, rest, rfl, rfl⟩
            · exact ⟨.nonterminal b :: before, a, after, rfl, rfl⟩
          · rintro ⟨before, a, after, hsplit, rfl⟩
            rcases List.cons_eq_append_iff.mp hsplit with ⟨_, heq⟩ | ⟨before, rfl, rfl⟩
            · cases heq
              exact Or.inl rfl
            · exact Or.inr ⟨before, a, after, rfl, rfl⟩

end Follow

end PredictiveParsing
