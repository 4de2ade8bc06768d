import PredictiveParsing.Proofs.Parser.Termination
import PredictiveParsing.Proofs.Table.LeftRecursion

/-! # Runs without end

A run on a finite source that goes on for ever says something about its grammar: some nonterminal is rewritten to a
string in which only end markers stand in front of it. The run comes to this nonterminal again and again, and if there
are such end markers it does so at the end of its input. A table does not rule such runs out, since it does not rule
out left recursion. -/

namespace PredictiveParsing

namespace Parser

variable {τ ε : Type} {parser : Parser τ ε} {source : TokenSource} {run : Run τ}

/-- Only a run that goes on makes a step after which it goes on. -/
theorem running_of_status (h : (parser.step source run).2 = .ok .running) : run.phase = .running := by
  cases hphase : run.phase with
  | running => rfl
  | accepted =>
      rw [step_of_accepted hphase] at h
      cases h
  | failed =>
      rw [step_of_failed hphase] at h
      cases h

theorem status_of_running {n : Nat} (running : (parser.after source n).run.phase = .running)
    (later : (parser.after source (n + 1)).run.phase = .running) :
    (parser.step source (parser.after source n).run).2 = .ok .running := by
  have hrun : (parser.step source (parser.after source n).run).1.phase = .running := later
  rcases status_cases running with ⟨hstatus, _⟩ | ⟨_, hphase⟩ | ⟨_, _, hphase⟩
  · exact hstatus
  · rw [hrun] at hphase
    cases hphase
  · rw [hrun] at hphase
    cases hphase

variable {g : Grammar} {action : SemanticAction τ ε} {k : Nat}

/-- If every step of a run on a finite source leaves it going on, the run comes again and again to one and the same
nonterminal, which the predictions, and so the grammar, rewrite to itself behind some number of end markers. -/
theorem recurs_of_always_running (constructed : g.Constructed) (made : ofGrammar g action k = .ok parser)
    (finite : source.IsFinite) (always : ∀ n, (parser.step source (parser.after source n).run).2 = .ok .running) :
    ∃ a j, (∃ y, g.DerivesProperly [.nonterminal a] (List.replicate j (.terminal .endMarker) ++ .nonterminal a :: y)) ∧
      ∀ n, ∃ n' ≥ n, parser.RecursAt source n' a j := by
  have hparser := wellFormed_of_ofGrammar constructed made
  obtain ⟨table, _, rfl⟩ := ofGrammar_eq_ok_iff.mp made
  have hrunning := fun n => running_of_status (always n)
  obtain ⟨a, j, hoften⟩ := exists_recurs_often hrunning hparser finite
  obtain ⟨_, _, hrecurs⟩ := hoften 0
  obtain ⟨_, y, hchain⟩ := hrecurs.recurs
  exact ⟨a, j, ⟨y, derivesProperly_of_expands hparser hchain⟩, hoften⟩

/-- The parser for any number of terminals that can be left out. -/
def optionals : Parser Unit Unit := ⟨.optionals, Grammar.optionalsTable, .idle⟩

theorem made_optionals : ofGrammar Grammar.optionals .idle 1 = .ok optionals :=
  ofGrammar_eq_ok_iff.mpr ⟨_, Grammar.table_optionals, rfl⟩

/-- On the empty input this parser comes back to its start symbol: the repetition is taken and its terminal left out. -/
theorem recursAt_optionals : optionals.RecursAt (.ofList []) 0 ⟨0⟩ 0 := by
  have hrepeat : optionals.Expands (optionals.after (.ofList []) 0).run [.nonterminal ⟨0⟩]
      [.nonterminal ⟨1⟩, .nonterminal ⟨0⟩] :=
    .head (p := ⟨⟨0⟩, ⟨0⟩, [.nonterminal ⟨1⟩, .nonterminal ⟨0⟩]⟩) rfl
  have homit : optionals.Expands (optionals.after (.ofList []) 0).run [.nonterminal ⟨1⟩, .nonterminal ⟨0⟩]
      [.nonterminal ⟨0⟩] :=
    .expand (j := 0) (p := ⟨⟨3⟩, ⟨1⟩, [.terminal .epsilon]⟩) (Or.inl rfl) rfl
  exact ⟨rfl, rfl, ⟨[.terminal .endMarker], rfl⟩, Or.inl rfl, [], .tail (.single hrepeat) homit⟩

theorem always_running_optionals (n : Nat) :
    (optionals.step (.ofList []) (optionals.after (.ofList []) n).run).2 = .ok .running := by
  have hparser := wellFormed_of_ofGrammar (Grammar.constructed_of_build Grammar.build_optionals) made_optionals
  have hrunning := recursAt_optionals.running_after hparser fun root _ => ⟨root, rfl⟩
  exact status_of_running (hrunning n) (hrunning (n + 1))

theorem optionals_recurs :
    ∃ a j, (∃ y, Grammar.optionals.DerivesProperly [.nonterminal a]
        (List.replicate j (.terminal .endMarker) ++ .nonterminal a :: y)) ∧
      ∀ n, ∃ n' ≥ n, optionals.RecursAt (.ofList []) n' a j :=
  recurs_of_always_running (Grammar.constructed_of_build Grammar.build_optionals) made_optionals ⟨1, rfl⟩
    always_running_optionals

end Parser

end PredictiveParsing
