import PredictiveParsing.Proofs.Grammar.Derivation
import PredictiveParsing.Proofs.Parser.Soundness

/-! # The phases of a run

A run goes on until a step accepts it or fails, and does nothing any more after that. As long as it goes on, the end
marker lies at the bottom of its stack, and the epsilon marker nowhere on it. A run fails at most once and keeps
nothing; from then on each step only says that it has failed. The lookahead that an error shows does not begin with
what was expected. -/

namespace PredictiveParsing

namespace Run

variable {τ : Type} {source : TokenSource} {run : Run τ} {c k : Nat}

/-- The lookahead begins with the terminal that comes next. -/
theorem first?_lookahead (h : run.Reads source (k + 1) c) : run.lookahead.first? = some run.front := by
  rw [front_eq h, lookahead, h.window, TokenSource.terminalsFrom_succ]
  by_cases hend : source.terminalAt c = .endMarker
  · rw [hend, Lookahead.ofTerminals_endMarker]
    rfl
  · have hopen : source.stopped (c + 1) = false :=
      Bool.eq_false_iff.mpr (mt TokenSource.terminalAt_eq_endMarker_iff.mpr hend)
    rw [Lookahead.ofTerminals_token (TokenSource.token_of_stopped_eq_false hopen).2]
    rfl

/-- A request that takes no answer from the source does not depend on it. -/
theorem pull_congr (source' : TokenSource) (unasked : (run.pull source).2.pulled = run.pulled) :
    run.pull source' = run.pull source := by
  cases hdone : run.sourceDone with
  | true => simp [pull, hdone]
  | false =>
      have hasked : (run.pull source).2.pulled = run.pulled + 1 := by
        simp only [pull, hdone, Bool.false_eq_true, if_false]
        repeat' split
        all_goals rfl
      omega

theorem advance_congr (source' : TokenSource) (unasked : (run.advance source).pulled = run.pulled) :
    run.advance source' = run.advance source := by
  rw [advance, widen, advance, widen, pull_congr source' unasked]

end Run

namespace Parser

variable {τ ε : Type} {parser : Parser τ ε} {source : TokenSource} {run : Run τ} {trace trace' : Trace τ}
  {e : ParseError ε} {m n : Nat}

/-- What the step of a run after `n` steps says. -/
def answer (parser : Parser τ ε) (source : TokenSource) (n : Nat) : Except (ParseError ε) Status :=
  (parser.step source (parser.after source n).run).2

/-- The production for which a step calls the action, if it does. -/
def called? (parser : Parser τ ε) (run : Run τ) : Option ProductionId :=
  match run.phase, run.emptyToken, run.stack with
  | .running, false, .nonterminal a :: _ => (parser.predict run a).map Production.id
  | _, _, _ => none

/-- A step depends on nothing of the action but the call that it makes. -/
theorem step_congr_action {action : SemanticAction τ ε}
    (same : ∀ id, parser.called? run = some id → action run.root id = parser.action run.root id) :
    ({ parser with action } : Parser τ ε).step source run = parser.step source run := by
  unfold step called? at *
  split <;> try rfl
  rename_i hphase
  split <;> try rfl
  rename_i hspoiled
  split <;> try rfl
  rename_i a rest hstack
  rw [hphase, Bool.eq_false_iff.mpr hspoiled, hstack] at same
  unfold stepNonterminal
  split
  · rename_i hmissing
    have hsame : parser.predict { run with stack := rest } a = none := hmissing
    rw [hsame]
  · rename_i p hpredicted
    have hsame : parser.predict { run with stack := rest } a = some p := hpredicted
    have hcall : action run.root p.id = parser.action run.root p.id := by
      apply same
      exact congrArg (Option.map Production.id) hsame
    rw [hsame]
    dsimp only
    rw [hcall]

/-- A step that takes no answer from the source does not depend on it. -/
theorem step_congr_source (source' : TokenSource) (unasked : (parser.step source run).1.pulled = run.pulled) :
    parser.step source' run = parser.step source run := by
  unfold step
  split <;> try rfl
  rename_i hphase
  split <;> try rfl
  rename_i hspoiled
  split <;> try rfl
  rename_i t rest hstack
  split <;> try rfl
  rename_i hplain
  unfold stepTerminal
  split <;> try rfl
  rename_i hfront
  obtain rfl : t = run.front := hfront
  have hplain : run.window.head?.getD .endMarker ≠ .endMarker := mt Terminal.isEnd_iff.mpr hplain
  have hasked : (Run.advance source { run with stack := rest }).pulled = run.pulled := by
    simpa [step, stepTerminal, Run.front, hphase, hspoiled, hstack, hplain] using unasked
  rw [Run.advance_congr source' hasked]

/-- A step that neither calls the action nor takes an answer from the source. -/
structure Silent (parser : Parser τ ε) (source : TokenSource) (run : Run τ) : Prop where
  uncalled : parser.called? run = none
  unasked : (parser.step source run).1.pulled = run.pulled

theorem Silent.congr (h : parser.Silent source run) (action : SemanticAction τ ε) (source' : TokenSource) :
    ({ parser with action } : Parser τ ε).step source' run = parser.step source run := by
  calc ({ parser with action } : Parser τ ε).step source' run
      = parser.step source' run := step_congr_action fun id hid => by rw [h.uncalled] at hid; cases hid
    _ = parser.step source run := step_congr_source source' h.unasked

theorem silent_of_halted (halted : run.phase ≠ .running) : parser.Silent source run := by
  constructor
  · unfold called?
    split
    · exact absurd ‹_› halted
    · rfl
  · cases hphase : run.phase with
    | running => exact absurd hphase halted
    | accepted => rw [step_of_accepted hphase]
    | failed => rw [step_of_failed hphase]

/-- A step that fails while the run goes on leaves neither a stack nor a root, and says what has gone wrong. -/
theorem failure_of_error (running : run.phase = .running) (h : (parser.step source run).2 = .error e) :
    e ≠ .halted ∧ (parser.step source run).1.phase = .failed ∧ (parser.step source run).1.root = none ∧
      (parser.step source run).1.stack = [] := by
  have heffect := effect_step parser source running
  generalize parser.step source run = outcome at *
  cases heffect with
  | spoiled | trailing | mismatch | unpredicted | rejected =>
      cases h
      exact ⟨nofun, rfl, rfl, rfl⟩
  | exhausted | accept | pass | consume | expand => cases h

/-- The only error of a run that does not go on any more is that it has failed. -/
theorem running_of_error (h : parser.answer source n = .error e) (ne : e ≠ .halted) :
    (parser.after source n).run.phase = .running := by
  unfold answer at h
  cases hphase : (parser.after source n).run.phase with
  | running => rfl
  | accepted =>
      rw [step_of_accepted hphase] at h
      cases h
  | failed =>
      rw [step_of_failed hphase] at h
      cases h
      exact absurd rfl ne

theorem phase_succ_of_accepted (h : parser.answer source n = .ok .accepted) :
    (parser.after source (n + 1)).run.phase = .accepted := by
  change (parser.step source (parser.after source n).run).1.phase = .accepted
  unfold answer at h
  cases hphase : (parser.after source n).run.phase with
  | running =>
      have hcases := @status_cases _ _ parser source _ hphase
      rcases hcases with ⟨hstatus, _⟩ | ⟨_, haccepted⟩ | ⟨e, hstatus, _⟩
      · rw [hstatus] at h
        cases h
      · exact haccepted
      · rw [hstatus] at h
        cases h
  | accepted => rw [step_of_accepted hphase, hphase]
  | failed =>
      rw [step_of_failed hphase] at h
      cases h

/-- The end marker lies at the bottom of a stack, and the epsilon marker nowhere on it. -/
structure Grounded (stack : List Symbol) : Prop where
  bottom : stack.getLast? = some (.terminal .endMarker)
  plain : ∀ symbol ∈ stack, symbol ≠ .terminal .epsilon

/-- No move puts an epsilon marker onto the stack. -/
theorem plain_of_moves (hparser : parser.WellFormed)
    (plain : ∀ symbol ∈ trace.run.stack, symbol ≠ .terminal .epsilon) (moves : parser.Moves source trace trace') :
    ∀ symbol ∈ trace'.run.stack, symbol ≠ .terminal .epsilon := by
  intro symbol hsymbol
  cases moves with
  | pass clean top front more =>
      apply plain
      rw [top]
      exact List.mem_cons_of_mem _ hsymbol
  | consume clean top _ front =>
      rw [Run.stack_advance] at hsymbol
      apply plain
      rw [top]
      exact List.mem_cons_of_mem _ hsymbol
  | expand clean top predicted built =>
      rcases List.mem_append.mp hsymbol with hbody | hrest
      · obtain ⟨mem, _⟩ := mem_of_predict hparser predicted
        exact (hparser.grammar.wellFormed _ mem).ne_epsilon hbody
      · apply plain
        rw [top]
        exact List.mem_cons_of_mem _ hrest

theorem grounded_after (hparser : parser.WellFormed) (running : (parser.after source n).run.phase = .running) :
    Grounded (parser.after source n).run.stack := by
  obtain ⟨_, ⟨rest, hstack, _⟩, _⟩ := invariant_after hparser running
  constructor
  · rw [hstack, List.getLast?_concat]
  · refine running_induction (P := fun trace : Trace τ => ∀ symbol ∈ trace.run.stack, symbol ≠ .terminal .epsilon) ?_
      (fun _ _ => plain_of_moves hparser) running
    rw [after, start, Run.begin_eq]
    simp [Run.refreshed, Run.unread, Terminal.epsilon, Terminal.endMarker]

/-- The lookahead that an error shows does not begin with what was expected: input that comes behind the end does not
begin with the end marker, and a terminal that was expected does not come next. -/
theorem lookahead_of_error (hparser : parser.WellFormed) (h : parser.answer source n = .error e) :
    (∀ lookahead, e = .trailingInput lookahead → lookahead.first? ≠ some .endMarker) ∧
      ∀ t lookahead, e = .unexpectedToken (.terminal t) lookahead → lookahead.first? ≠ some t := by
  by_cases hhalted : e = .halted
  · rw [hhalted]
    exact ⟨nofun, nofun⟩
  have running := running_of_error h hhalted
  have hreads := (feeds_after hparser.pos running).reads
  obtain ⟨k, hk⟩ := Nat.exists_eq_succ_of_ne_zero (Nat.ne_of_gt hparser.pos)
  rw [hk] at hreads
  have hfirst := Run.first?_lookahead hreads
  have heffect := effect_step parser source running
  unfold answer at h
  generalize parser.step source (parser.after source n).run = outcome at *
  cases heffect with
  | spoiled | unpredicted | rejected =>
      cases h
      exact ⟨nofun, nofun⟩
  | exhausted | accept | pass | consume | expand => cases h
  | trailing top front =>
      cases h
      refine ⟨?_, nofun⟩
      rintro _ ⟨⟩ hsame
      exact front (Option.some.inj (hfirst.symm.trans hsame))
  | mismatch top plain front =>
      cases h
      refine ⟨nofun, ?_⟩
      rintro _ _ ⟨⟩ hsame
      exact front (Option.some.inj (hfirst.symm.trans hsame))

variable {g : Grammar} {action : SemanticAction τ ε} {k : Nat}

/-- A run that goes on has the end marker at the bottom of its stack and no epsilon marker on it. An error other than
that of a run that has failed occurs once at most; what is left of the run is neither a stack nor a root, and all
steps after it say that it has failed. All steps after one that accepts accept and change nothing. Neither those steps
nor these call the action or ask the source, and so they are the same whatever these would do. The lookahead of an
error does not begin with what was expected. -/
theorem phases_of_run (constructed : g.Constructed) (made : ofGrammar g action k = .ok parser) (source : TokenSource) :
    (∀ n, (parser.after source n).run.phase = .running → Grounded (parser.after source n).run.stack) ∧
    (∀ n e, parser.answer source n = .error e → e ≠ .halted →
      (∀ m e', parser.answer source m = .error e' → e' ≠ .halted → m = n) ∧
      ∀ m > n, (parser.after source m).run.root = none ∧ (parser.after source m).run.stack = [] ∧
        parser.answer source m = .error .halted ∧ parser.Silent source (parser.after source m).run ∧
        ∀ (action' : SemanticAction τ ε) (source' : TokenSource),
          ({ parser with action := action' } : Parser τ ε).step source' (parser.after source m).run =
            ((parser.after source m).run, .error .halted)) ∧
    (∀ n, parser.answer source n = .ok .accepted →
      ∀ m > n, parser.after source m = parser.after source (n + 1) ∧ parser.answer source m = .ok .accepted ∧
        parser.Silent source (parser.after source m).run ∧
        ∀ (action' : SemanticAction τ ε) (source' : TokenSource),
          ({ parser with action := action' } : Parser τ ε).step source' (parser.after source m).run =
            ((parser.after source m).run, .ok .accepted)) ∧
    ∀ n e, parser.answer source n = .error e →
      (∀ lookahead, e = .trailingInput lookahead → lookahead.first? ≠ some .endMarker) ∧
        ∀ t lookahead, e = .unexpectedToken (.terminal t) lookahead → lookahead.first? ≠ some t := by
  have hparser := wellFormed_of_ofGrammar constructed made
  have hfailed : ∀ n e, parser.answer source n = .error e → e ≠ .halted → ∀ m > n,
      (parser.after source m).run.phase = .failed ∧ (parser.after source m).run.root = none ∧
        (parser.after source m).run.stack = [] := by
    intro n e herror ne m hm
    obtain ⟨_, hphase, hroot, hstack⟩ := failure_of_error (running_of_error herror ne) herror
    have hnext : (parser.after source (n + 1)).run.phase = .failed := hphase
    rw [after_of_halted (by rw [hnext]; decide) hm]
    exact ⟨hphase, hroot, hstack⟩
  refine ⟨fun n running => grounded_after hparser running, fun n e herror ne => ⟨?_, fun m hm => ?_⟩, ?_, ?_⟩
  · -- Behind an error the run does not go on, so that no other one can come.
    intro m e' herror' ne'
    rcases Nat.lt_trichotomy m n with hlt | heq | hgt
    · have hphase := (hfailed m e' herror' ne' n hlt).1
      rw [running_of_error herror ne] at hphase
      cases hphase
    · exact heq
    · have hphase := (hfailed n e herror ne m hgt).1
      rw [running_of_error herror' ne'] at hphase
      cases hphase
  · obtain ⟨hphase, hroot, hstack⟩ := hfailed n e herror ne m hm
    have hsilent : parser.Silent source (parser.after source m).run := silent_of_halted (by rw [hphase]; decide)
    refine ⟨hroot, hstack, ?_, hsilent, fun action' source' => ?_⟩
    · rw [answer, step_of_failed hphase]
    · rw [hsilent.congr, step_of_failed hphase]
  · intro n haccepted m hm
    have hphase := phase_succ_of_accepted haccepted
    have hlater := after_of_halted (m := m) (by rw [hphase]; decide) hm
    have hsilent : parser.Silent source (parser.after source (n + 1)).run :=
      silent_of_halted (by rw [hphase]; decide)
    rw [answer, hlater]
    refine ⟨rfl, ?_, hsilent, fun action' source' => ?_⟩
    · rw [step_of_accepted hphase]
    · rw [hsilent.congr, step_of_accepted hphase]
  · exact fun n e herror => lookahead_of_error hparser herror

theorem nested_phases :
    let parser : Parser Unit Unit := ⟨.nested, Grammar.nestedTable, .idle⟩
    let cut : TokenSource := .ofList [some ⟨2⟩, some ⟨2⟩]
    let whole : TokenSource := .ofList [some ⟨2⟩, some ⟨3⟩]
    Grounded (parser.after cut 6).run.stack ∧
      parser.answer cut 6 = .error (.unexpectedToken (.terminal ⟨3⟩) ⟨[.endMarker]⟩) ∧
      (∀ m > 6, (parser.after cut m).run.stack = [] ∧ parser.answer cut m = .error .halted) ∧
      parser.answer whole 5 = .ok .accepted ∧ ∀ m > 5, parser.answer whole m = .ok .accepted := by
  intro parser cut whole
  have hmade : ofGrammar .nested .idle 1 = .ok parser := ofGrammar_eq_ok_iff.mpr ⟨_, Grammar.table_nested, rfl⟩
  obtain ⟨hgrounded, herrors, _⟩ := phases_of_run Grammar.constructed_nested hmade cut
  obtain ⟨_, _, haccepts, _⟩ := phases_of_run Grammar.constructed_nested hmade whole
  have hcut : parser.answer cut 6 = .error (.unexpectedToken (.terminal ⟨3⟩) ⟨[.endMarker]⟩) := by decide +kernel
  have hlater := (herrors 6 _ hcut nofun).2
  have hwhole : parser.answer whole 5 = .ok .accepted := by decide +kernel
  have hrun : (parser.after cut 6).run.phase = .running := by decide +kernel
  refine ⟨hgrounded 6 hrun, hcut, fun m hm => ?_, hwhole, fun m hm => (haccepts 5 hwhole m hm).2.1⟩
  exact ⟨(hlater m hm).2.1, (hlater m hm).2.2.1⟩

end Parser

end PredictiveParsing
