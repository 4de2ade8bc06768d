import PredictiveParsing.Proofs.Parser.Soundness

/-! # What a run asks of its source

While a run goes on, its window holds the next terminals and the source has been asked for just these. So the source
is asked once more than it has tokens at the most, whatever the run comes to, and sources with the same tokens cannot
be told apart. An epsilon marker is noticed as soon as the source gives it: the run fails at its next step. -/

namespace PredictiveParsing

namespace Run

variable {τ : Type} {source source' : TokenSource} {run : Run τ} {k c : Nat}

theorem refreshed_alike (alike : source.Alike source') (n : Nat) (window : List Terminal) (run : Run τ) :
    run.refreshed source' n window = run.refreshed source n window := by
  rw [refreshed, refreshed, alike.answered, alike.stopped, alike.spoiled]

theorem Reads.alike (alike : source.Alike source') (h : run.Reads source k c) : run.Reads source' k c := by
  obtain ⟨⟨hpulled, hdone, hempty⟩, hwindow⟩ := h
  refine ⟨⟨?_, ?_, ?_⟩, ?_⟩
  · rw [hpulled, alike.answered]
  · rw [hdone, alike.stopped]
  · rw [hempty, alike.spoiled]
  · rw [hwindow, alike.terminals]

theorem advance_alike (alike : source.Alike source') (pos : 0 < k) (h : run.Reads source k c) :
    run.advance source' = run.advance source := by
  obtain ⟨k, rfl⟩ := Nat.exists_eq_succ_of_ne_zero (Nat.ne_of_gt pos)
  rw [advance_eq h, advance_eq (h.alike alike), refreshed_alike alike, alike.terminals]

end Run

namespace Parser

variable {τ ε : Type} {parser : Parser τ ε} {source source' : TokenSource} {trace : Trace τ} {tokens : List Terminal}
  {n : Nat}

/-- The window is filled from given tokens behind those that have been consumed, and with end markers then; the
lookahead ends with the first of these. The source has been asked for what has been in the window, but only once
behind the tokens. -/
structure SeesTokens (tokens : List Terminal) (k : Nat) (trace : Trace τ) : Prop where
  consumed : trace.history.consumed = tokens.take trace.history.consumed.length
  slots : trace.run.window.length = k
  window : trace.run.window =
    (tokens.drop trace.history.consumed.length ++ List.replicate k Terminal.endMarker).take k
  lookahead : trace.run.lookahead.terminals =
    (tokens.drop trace.history.consumed.length ++ [Terminal.endMarker]).take k
  pulled : trace.run.pulled = min (trace.history.consumed.length + k) (tokens.length + 1)

/-- The window is filled with the answers of the source behind those that have been consumed, which are all that it
has been asked for. -/
structure SeesAnswers (source : TokenSource) (k : Nat) (trace : Trace τ) : Prop where
  consumed : trace.history.consumed.map some = (List.range trace.history.consumed.length).map source
  slots : trace.run.window.length = k
  window : trace.run.window.map some = (List.range' trace.history.consumed.length k).map source
  lookahead : trace.run.lookahead.terminals = trace.run.window
  pulled : trace.run.pulled = trace.history.consumed.length + k

namespace Feeds

theorem seesTokens (feeds : parser.Feeds source trace) (h : source.EndsAfter tokens) :
    SeesTokens tokens parser.k trace := by
  have hwindow := feeds.reads.window
  constructor
  · exact (feeds.consumed_eq_take h).2
  · rw [hwindow, TokenSource.length_terminalsFrom]
  · rw [hwindow, h.terminalsFrom_eq]
  · rw [Run.lookahead, hwindow, h.ofTerminals_terminalsFrom]
  · rw [feeds.reads.informed.pulled, h.answered_eq]

theorem seesAnswers (feeds : parser.Feeds source trace) (h : source.Endless) :
    SeesAnswers source parser.k trace := by
  have hwindow := feeds.reads.window
  constructor
  · rw [feeds.consumed, h.map_terminalsFrom, TokenSource.length_terminalsFrom, List.range_eq_range']
  · rw [hwindow, TokenSource.length_terminalsFrom]
  · rw [hwindow, h.map_terminalsFrom]
  · rw [Run.lookahead, hwindow, h.ofTerminals_terminalsFrom]
  · rw [feeds.reads.informed.pulled, h.answered_eq]

end Feeds

/-- A step after which the run does not go on asks for nothing. -/
theorem pulled_next_of_halted (running : trace.run.phase = .running)
    (halted : (parser.next source trace).run.phase ≠ .running) :
    (parser.next source trace).run.pulled = trace.run.pulled := by
  obtain ⟨run, history⟩ := trace
  have heffect := effect_step parser source running
  unfold next at *
  dsimp only at *
  generalize parser.step source run = outcome at *
  cases heffect with
  | spoiled | exhausted | trailing | accept | mismatch | unpredicted | rejected => rfl
  | pass | expand => exact absurd running halted
  | consume =>
      rw [Run.phase_advance] at halted
      exact absurd running halted

theorem pulled_le (pos : 0 < parser.k) (h : source.EndsAfter tokens) (n : Nat) :
    (parser.after source n).run.pulled ≤ tokens.length + 1 := by
  have hle : ∀ m, (parser.after source m).run.phase = .running →
      (parser.after source m).run.pulled ≤ tokens.length + 1 := by
    intro m running
    rw [((feeds_after pos running).seesTokens h).pulled]
    exact Nat.min_le_right _ _
  by_cases hrunning : (parser.after source n).run.phase = .running
  · exact hle n hrunning
  · obtain ⟨m, running, hlast⟩ := exists_before_halted hrunning
    rw [hlast] at hrunning ⊢
    rw [pulled_next_of_halted running hrunning]
    exact hle m running

section Alike

variable (alike : source.Alike source') (pos : 0 < parser.k)
include alike pos

/-- Only a match looks at the source, and it finds the same. -/
theorem step_alike (n : Nat) :
    parser.step source' (parser.after source n).run = parser.step source (parser.after source n).run := by
  cases hphase : (parser.after source n).run.phase with
  | accepted => rw [step_of_accepted hphase, step_of_accepted hphase]
  | failed => rw [step_of_failed hphase, step_of_failed hphase]
  | running =>
      have hreads := (feeds_after pos hphase).reads
      have hadvance : ∀ rest,
          Run.advance source' { (parser.after source n).run with stack := rest } =
            Run.advance source { (parser.after source n).run with stack := rest } :=
        fun rest => Run.advance_alike alike pos (hreads.withStack rest _)
      simp only [step, stepTerminal, hadvance]

theorem after_alike (n : Nat) : parser.after source' n = parser.after source n := by
  induction n with
  | zero =>
      rw [after, after, start, start, Run.begin_eq, Run.begin_eq, Run.refreshed_alike alike, alike.terminals]
  | succ n ih =>
      rw [after, after, ih, next, next, record, record, step_alike alike pos n]

end Alike

section Spoiled

variable (h : source.EndsAfter tokens) (epsilon : source tokens.length = some .epsilon)
include h epsilon

/-- The run knows of the epsilon marker behind the tokens as soon as it has been asked for. -/
theorem Feeds.emptyToken_eq (feeds : parser.Feeds source trace) :
    trace.run.emptyToken = decide (tokens.length < trace.history.consumed.length + parser.k) := by
  rw [feeds.reads.informed.emptyToken, h.spoiled_eq, epsilon, Option.any_some, Terminal.isEpsilon_epsilon, Bool.and_true]

theorem not_accepted_of_epsilon (hparser : parser.WellFormed) (n : Nat) :
    (parser.after source n).run.phase ≠ .accepted := by
  intro accepted
  obtain ⟨m, running, hlast⟩ := exists_before_accepted accepted
  rw [hlast] at accepted
  obtain ⟨hfeeds, ⟨rest, hstack, _⟩, _⟩ := invariant_after hparser running
  have hne : (parser.after source m).run.stack ≠ [] := by
    rw [hstack]
    exact List.concat_ne_nil _ _
  obtain ⟨hclean, hfront, _⟩ := (accepted_cases running accepted).2 hne
  -- All tokens have been consumed, so the window lies behind the epsilon marker.
  rw [hfeeds.front_eq hparser.pos, TokenSource.terminalAt_eq_endMarker_iff, h.stopped_eq, decide_eq_true_eq] at hfront
  rw [hfeeds.emptyToken_eq h epsilon, decide_eq_false_iff_not] at hclean
  have hpos := hparser.pos
  omega

/-- The step after the one that has asked for the epsilon marker fails for it. -/
theorem step_of_epsilon (hparser : parser.WellFormed)
    (asked : (parser.after source n).run.pulled = tokens.length + 1)
    (going : (parser.after source n).run.phase ≠ .failed) :
    (parser.step source (parser.after source n).run).2 = .error .emptyToken := by
  cases hphase : (parser.after source n).run.phase with
  | accepted => exact absurd hphase (not_accepted_of_epsilon h epsilon hparser n)
  | failed => exact absurd hphase going
  | running =>
      have hfeeds := feeds_after hparser.pos hphase
      have hempty := hfeeds.emptyToken_eq h epsilon
      rw [(hfeeds.seesTokens h).pulled] at asked
      rw [decide_eq_true (by omega)] at hempty
      rw [step, hphase, hempty]
      rfl

end Spoiled

variable {g : Grammar} {action : SemanticAction τ ε} {k : Nat}

/-- A run that goes on sees the next tokens of its source and has asked for no more than these. It never asks again
once its input has ended, cannot tell sources apart that agree up to there, and is not accepted if the input ends with
an epsilon marker, for which it fails as soon as it has asked for it. -/
theorem sees_tokens_up_to_end (constructed : g.Constructed) (made : ofGrammar g action k = .ok parser)
    (source : TokenSource) :
    ((∃ tokens, source.EndsAfter tokens) ∨ source.Endless) ∧
    (∀ n, (parser.after source n).run.phase = .running →
      (∀ tokens, source.EndsAfter tokens → SeesTokens tokens k (parser.after source n)) ∧
        (source.Endless → SeesAnswers source k (parser.after source n))) ∧
    ∀ tokens, source.EndsAfter tokens →
      (∀ n, (parser.after source n).run.pulled ≤ tokens.length + 1) ∧
      (∀ source', source.Agree source' tokens.length →
        ∀ n, parser.after source' n = parser.after source n ∧
          (parser.step source' (parser.after source' n).run).2 = (parser.step source (parser.after source n).run).2) ∧
      (source tokens.length = some .epsilon →
        (∀ n, (parser.after source n).run.phase ≠ .accepted) ∧
        ∀ n, (parser.after source n).run.pulled = tokens.length + 1 → (parser.after source n).run.phase ≠ .failed →
          (parser.step source (parser.after source n).run).2 = .error .emptyToken) := by
  have hparser := wellFormed_of_ofGrammar constructed made
  obtain rfl := k_of_ofGrammar made
  refine ⟨source.endsAfter_or_endless, fun n running => ?_, fun tokens h => ⟨pulled_le hparser.pos h, ?_, ?_⟩⟩
  · have hfeeds := feeds_after hparser.pos running
    exact ⟨fun tokens h => hfeeds.seesTokens h, fun h => hfeeds.seesAnswers h⟩
  · intro source' agree n
    have halike := h.alike agree
    have hsame := after_alike halike hparser.pos n
    exact ⟨hsame, by rw [hsame, step_alike halike hparser.pos n]⟩
  · intro epsilon
    exact ⟨not_accepted_of_epsilon h epsilon hparser, fun n => step_of_epsilon h epsilon hparser⟩

theorem nested_sees_tokens_up_to_end :
    let parser : Parser Unit Unit := ⟨.nested, Grammar.nestedTable, .idle⟩
    let source : TokenSource := .ofList [some ⟨2⟩, some ⟨3⟩]
    SeesTokens [⟨2⟩, ⟨3⟩] 1 (parser.after source 2) ∧ (∀ n, (parser.after source n).run.pulled ≤ 3) ∧
      (∀ n, parser.after (.ofList [some ⟨2⟩, some ⟨3⟩, some .endMarker, some ⟨2⟩]) n = parser.after source n) ∧
      ∀ n, (parser.after (.ofList [some ⟨2⟩, some .epsilon, some ⟨3⟩]) n).run.phase ≠ .accepted := by
  intro parser source
  have hsees := sees_tokens_up_to_end Grammar.constructed_nested
    (ofGrammar_eq_ok_iff.mpr ⟨_, Grammar.table_nested, rfl⟩ : ofGrammar .nested .idle 1 = .ok parser)
  have hends : source.EndsAfter [⟨2⟩, ⟨3⟩] := ⟨by decide, by decide, rfl⟩
  have hspoiled : TokenSource.EndsAfter (.ofList [some ⟨2⟩, some .epsilon, some ⟨3⟩]) [⟨2⟩] :=
    ⟨by decide, by decide, rfl⟩
  have hagree : source.Agree (.ofList [some ⟨2⟩, some ⟨3⟩, some .endMarker, some ⟨2⟩]) 2 :=
    ⟨by decide, Or.inr ⟨rfl, rfl⟩⟩
  obtain ⟨_, hrunning, hend⟩ := hsees source
  obtain ⟨hpulled, hsame, _⟩ := hend [⟨2⟩, ⟨3⟩] hends
  refine ⟨(hrunning 2 rfl).1 [⟨2⟩, ⟨3⟩] hends, hpulled, fun n => (hsame _ hagree n).1, ?_⟩
  exact (((hsees (.ofList [some ⟨2⟩, some .epsilon, some ⟨3⟩])).2.2 [⟨2⟩] hspoiled).2.2 rfl).1

end Parser

end PredictiveParsing
