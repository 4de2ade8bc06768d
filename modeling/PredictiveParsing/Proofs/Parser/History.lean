import PredictiveParsing.Parser.Step
import PredictiveParsing.Proofs.Parser.Window

/-! # Steps and their histories

What a step does is said once, case by case. Beside a run goes its history: the tokens that have been consumed by
matches of terminals, the end markers that have been taken from the stack on the way, and the productions that have
been applied. A run that goes on makes one of three moves, each of which adds one thing to the history; a run that
has been accepted or has failed does not change any more. -/

namespace PredictiveParsing

/-- What the steps of a run have done so far. -/
structure History where
  consumed : List Terminal
  ended : Nat
  applied : List ProductionId
deriving DecidableEq, Inhabited

/-- A run with its history. -/
structure Trace (τ : Type) where
  run : Run τ
  history : History

namespace Parser

variable {τ ε : Type}

/-- The history after a step. Only a step after which the run goes on adds something to it. -/
def record (parser : Parser τ ε) (source : TokenSource) (run : Run τ) (history : History) : History :=
  match (parser.step source run).2, run.stack with
  | .ok .running, .terminal t :: _ =>
    if t.isEnd then { history with ended := history.ended + 1 }
    else { history with consumed := history.consumed ++ [run.front] }
  | .ok .running, .nonterminal a :: _ =>
    { history with applied := history.applied ++ ((parser.predict run a).map Production.id).toList }
  | _, _ => history

/-- One step of a run with its history. -/
def next (parser : Parser τ ε) (source : TokenSource) (trace : Trace τ) : Trace τ :=
  ⟨(parser.step source trace.run).1, parser.record source trace.run trace.history⟩

/-- A run after `n` steps, with its history. -/
def after (parser : Parser τ ε) (source : TokenSource) : Nat → Trace τ
  | 0 => ⟨parser.start source, ⟨[], 0, []⟩⟩
  | n + 1 => parser.next source (parser.after source n)

/-- What a step of a run that goes on can do. -/
inductive Effect (parser : Parser τ ε) (source : TokenSource) (run : Run τ) : Outcome τ ε → Prop where
  | spoiled (spoiled : run.emptyToken = true) : Effect parser source run (fail run .emptyToken)
  | exhausted (empty : run.stack = []) : Effect parser source run ({ run with phase := .accepted }, .ok .accepted)
  | trailing {rest : List Symbol} (top : run.stack = .terminal .endMarker :: rest) (front : run.front ≠ .endMarker) :
      Effect parser source run (fail { run with stack := rest } (.trailingInput run.lookahead))
  | accept {rest : List Symbol} (clean : run.emptyToken = false) (top : run.stack = .terminal .endMarker :: rest)
      (front : run.front = .endMarker) (last : rest.all Symbol.isEnd = true) :
      Effect parser source run ({ run with stack := [], phase := .accepted }, .ok .accepted)
  | pass {rest : List Symbol} (clean : run.emptyToken = false) (top : run.stack = .terminal .endMarker :: rest)
      (front : run.front = .endMarker) (more : rest.all Symbol.isEnd = false) :
      Effect parser source run ({ run with stack := rest }, .ok .running)
  | consume {t : Terminal} {rest : List Symbol} (clean : run.emptyToken = false)
      (top : run.stack = .terminal t :: rest) (plain : t ≠ .endMarker) (front : run.front = t) :
      Effect parser source run (Run.advance source { run with stack := rest }, .ok .running)
  | mismatch {t : Terminal} {rest : List Symbol} (top : run.stack = .terminal t :: rest) (plain : t ≠ .endMarker)
      (front : run.front ≠ t) :
      Effect parser source run (fail { run with stack := rest } (.unexpectedToken (.terminal t) run.lookahead))
  | unpredicted {a : Nonterminal} {rest : List Symbol} (top : run.stack = .nonterminal a :: rest)
      (missing : parser.predict run a = none) :
      Effect parser source run (fail { run with stack := rest } (.unexpectedToken (.nonterminal a) run.lookahead))
  | rejected {a : Nonterminal} {rest : List Symbol} {p : Production} {e : ε}
      (top : run.stack = .nonterminal a :: rest) (predicted : parser.predict run a = some p)
      (refused : parser.action run.root p.id = .error e) :
      Effect parser source run (fail { run with stack := rest } (.actionFailed p.id e))
  | expand {a : Nonterminal} {rest : List Symbol} {p : Production} {root : Option τ} (clean : run.emptyToken = false)
      (top : run.stack = .nonterminal a :: rest) (predicted : parser.predict run a = some p)
      (built : parser.action run.root p.id = .ok root) :
      Effect parser source run ({ run with root, stack := p.body ++ rest }, .ok .running)

variable {parser : Parser τ ε} {source : TokenSource} {run : Run τ}

theorem effect_stepEnd {rest : List Symbol} (clean : run.emptyToken = false)
    (top : run.stack = .terminal .endMarker :: rest) :
    parser.Effect source run (stepEnd { run with stack := rest }) := by
  unfold stepEnd
  split
  · rename_i hfront
    refine .trailing top fun h => ?_
    change (!run.front.isEnd) = true at hfront
    rw [h] at hfront
    cases hfront
  rename_i hfront
  have hfront : run.front = .endMarker := by simpa [Run.front] using hfront
  split
  · rename_i hlast
    exact .accept clean top hfront hlast
  · rename_i hmore
    exact .pass clean top hfront (Bool.eq_false_iff.mpr hmore)

theorem effect_stepTerminal {t : Terminal} {rest : List Symbol} (clean : run.emptyToken = false)
    (top : run.stack = .terminal t :: rest) (plain : t ≠ .endMarker) :
    parser.Effect source run (stepTerminal source { run with stack := rest } t) := by
  unfold stepTerminal
  split
  · rename_i hfront
    exact .consume clean top plain hfront.symm
  · rename_i hfront
    exact .mismatch top plain (Ne.symm hfront)

theorem effect_stepNonterminal {a : Nonterminal} {rest : List Symbol} (clean : run.emptyToken = false)
    (top : run.stack = .nonterminal a :: rest) :
    parser.Effect source run (parser.stepNonterminal { run with stack := rest } a) := by
  unfold stepNonterminal
  split
  · rename_i hmissing
    exact .unpredicted top hmissing
  · rename_i p hpredicted
    split
    · rename_i e hrefused
      exact .rejected top hpredicted hrefused
    · rename_i root hbuilt
      exact .expand clean top hpredicted hbuilt

theorem effect_step (parser : Parser τ ε) (source : TokenSource) (running : run.phase = .running) :
    parser.Effect source run (parser.step source run) := by
  obtain ⟨pulled, sourceDone, emptyToken, window, stack, root, phase⟩ := run
  obtain rfl : phase = .running := running
  dsimp only [step]
  split
  · rename_i hspoiled
    exact .spoiled hspoiled
  rename_i hspoiled
  have hclean : emptyToken = false := Bool.eq_false_iff.mpr hspoiled
  cases stack with
  | nil => exact .exhausted rfl
  | cons top rest =>
      cases top with
      | terminal t =>
          by_cases hend : t = .endMarker
          · subst hend
            exact effect_stepEnd hclean rfl
          · dsimp only
            rw [if_neg (mt Terminal.isEnd_iff.mp hend)]
            exact effect_stepTerminal hclean rfl hend
      | nonterminal a => exact effect_stepNonterminal hclean rfl

theorem step_of_accepted (h : run.phase = .accepted) : parser.step source run = (run, .ok .accepted) := by
  rw [step, h]

theorem step_of_failed (h : run.phase = .failed) : parser.step source run = (run, .error .halted) := by
  rw [step, h]

/-- One of the three moves of a run that goes on, with what it adds to the history. -/
inductive Moves (parser : Parser τ ε) (source : TokenSource) : Trace τ → Trace τ → Prop where
  | pass {run : Run τ} {history : History} {rest : List Symbol} (clean : run.emptyToken = false)
      (top : run.stack = .terminal .endMarker :: rest) (front : run.front = .endMarker)
      (more : rest.all Symbol.isEnd = false) :
      Moves parser source ⟨run, history⟩ ⟨{ run with stack := rest }, { history with ended := history.ended + 1 }⟩
  | consume {run : Run τ} {history : History} {t : Terminal} {rest : List Symbol} (clean : run.emptyToken = false)
      (top : run.stack = .terminal t :: rest) (plain : t ≠ .endMarker) (front : run.front = t) :
      Moves parser source ⟨run, history⟩
        ⟨Run.advance source { run with stack := rest }, { history with consumed := history.consumed ++ [t] }⟩
  | expand {run : Run τ} {history : History} {a : Nonterminal} {rest : List Symbol} {p : Production}
      {root : Option τ} (clean : run.emptyToken = false) (top : run.stack = .nonterminal a :: rest)
      (predicted : parser.predict run a = some p) (built : parser.action run.root p.id = .ok root) :
      Moves parser source ⟨run, history⟩
        ⟨{ run with root, stack := p.body ++ rest }, { history with applied := history.applied ++ [p.id] }⟩

variable {trace trace' : Trace τ}

/-- A run that goes on has made a move. -/
theorem moves_next (running : trace.run.phase = .running)
    (goes : (parser.next source trace).run.phase = .running) : parser.Moves source trace (parser.next source trace) := by
  obtain ⟨run, history⟩ := trace
  have heffect := effect_step parser source running
  unfold next record at *
  dsimp only at *
  generalize parser.step source run = outcome at *
  cases heffect with
  | spoiled | exhausted | trailing | accept | mismatch | unpredicted | rejected => cases goes
  | pass clean top front more =>
      rw [top]
      exact .pass clean top front more
  | @consume t rest clean top plain front =>
      rw [top]
      dsimp only
      rw [if_neg (mt Terminal.isEnd_iff.mp plain), front]
      exact .consume clean top plain front
  | @expand a rest p root clean top predicted built =>
      rw [top]
      dsimp only
      rw [predicted]
      exact .expand clean top predicted built

/-- A running run that can make a move makes it. -/
theorem next_of_moves (running : trace.run.phase = .running) (moves : parser.Moves source trace trace') :
    parser.next source trace = trace' := by
  obtain ⟨⟨pulled, sourceDone, emptyToken, window, stack, root, phase⟩, history⟩ := trace
  obtain rfl : phase = .running := running
  cases moves with
  | pass clean top front more =>
      obtain rfl : emptyToken = false := clean
      obtain rfl : stack = _ := top
      have hfront : window.head?.getD .endMarker = .endMarker := front
      simp [next, record, step, stepEnd, Run.front, hfront, more]
  | consume clean top plain front =>
      obtain rfl : emptyToken = false := clean
      obtain rfl : stack = _ := top
      have hfront : window.head?.getD .endMarker = _ := front
      simp [next, record, step, stepTerminal, Run.front, hfront, plain]
  | expand clean top predicted built =>
      obtain rfl : emptyToken = false := clean
      obtain rfl : stack = _ := top
      simp only [predict, Run.lookahead] at predicted
      simp [next, record, step, stepNonterminal, predict, Run.lookahead, predicted, built]

/-- A run is accepted with nothing but end markers on its stack, the input being at its end. -/
theorem accepted_cases (running : trace.run.phase = .running)
    (accepted : (parser.next source trace).run.phase = .accepted) :
    parser.next source trace = ⟨{ trace.run with stack := [], phase := .accepted }, trace.history⟩ ∧
      (trace.run.stack ≠ [] → trace.run.emptyToken = false ∧ trace.run.front = .endMarker ∧
        trace.run.stack.all Symbol.isEnd = true) := by
  obtain ⟨run, history⟩ := trace
  have heffect := effect_step parser source running
  unfold next record at *
  dsimp only at *
  generalize parser.step source run = outcome at *
  cases heffect with
  | spoiled | trailing | mismatch | unpredicted | rejected => cases accepted
  | pass | expand =>
      rw [running] at accepted
      cases accepted
  | consume =>
      rw [Run.phase_advance, running] at accepted
      cases accepted
  | exhausted empty => exact ⟨by simp [empty], fun hne => absurd empty hne⟩
  | accept clean top front last =>
      refine ⟨rfl, fun _ => ⟨clean, front, ?_⟩⟩
      rw [top, List.all_cons, last]
      rfl

/-- A run that has been accepted or has failed does not change. -/
theorem next_of_halted (halted : trace.run.phase ≠ .running) : parser.next source trace = trace := by
  obtain ⟨run, history⟩ := trace
  unfold next record
  cases hphase : run.phase with
  | running => exact absurd hphase halted
  | accepted => rw [step_of_accepted hphase]
  | failed => rw [step_of_failed hphase]

theorem after_of_halted {n m : Nat} (halted : (parser.after source n).run.phase ≠ .running) (hle : n ≤ m) :
    parser.after source m = parser.after source n := by
  induction m with
  | zero => rw [Nat.le_zero.mp hle]
  | succ m ih =>
      rcases Nat.lt_or_eq_of_le hle with hlt | rfl
      · have hm := ih (Nat.le_of_lt_succ hlt)
        rw [after, hm, next_of_halted halted]
      · rfl

/-- A run that is still going on has been going on before. -/
theorem running_of_le {n m : Nat} (running : (parser.after source m).run.phase = .running) (hle : n ≤ m) :
    (parser.after source n).run.phase = .running := by
  by_contra hhalted
  rw [after_of_halted hhalted hle] at running
  exact hhalted running

/-- The status of a step says in which phase it leaves the run. -/
theorem status_cases (running : run.phase = .running) :
    ((parser.step source run).2 = .ok .running ∧ (parser.step source run).1.phase = .running) ∨
    ((parser.step source run).2 = .ok .accepted ∧ (parser.step source run).1.phase = .accepted) ∨
    ∃ e, (parser.step source run).2 = .error e ∧ (parser.step source run).1.phase = .failed := by
  have heffect := effect_step parser source running
  generalize parser.step source run = outcome at *
  cases heffect with
  | spoiled | trailing | mismatch | unpredicted | rejected => exact Or.inr (Or.inr ⟨_, rfl, rfl⟩)
  | exhausted | accept => exact Or.inr (Or.inl ⟨rfl, rfl⟩)
  | pass | expand => exact Or.inl ⟨rfl, running⟩
  | consume => exact Or.inl ⟨rfl, (Run.phase_advance _ _).trans running⟩

/-- What a run yields within a number of steps is what it has come to after as many steps. -/
theorem runWithin_after {n : Nat} (limit : Nat) (running : (parser.after source n).run.phase = .running) :
    match (parser.after source (n + limit)).run.phase with
    | .running => parser.runWithin source limit (parser.after source n).run = none
    | .accepted => parser.runWithin source limit (parser.after source n).run =
        some ((parser.after source (n + limit)).run, .ok (parser.after source (n + limit)).run.root)
    | .failed => ∃ e, parser.runWithin source limit (parser.after source n).run =
        some ((parser.after source (n + limit)).run, .error e) := by
  induction limit generalizing n with
  | zero =>
      rw [Nat.add_zero, running]
      rfl
  | succ limit ih =>
      have hrun : (parser.after source (n + 1)).run = (parser.step source (parser.after source n).run).1 := rfl
      have hlater : n + (limit + 1) = n + 1 + limit := by omega
      rw [hlater, runWithin, ← Prod.eta (parser.step source (parser.after source n).run)]
      have hhalted : (parser.step source (parser.after source n).run).1.phase ≠ .running →
          parser.after source (n + 1 + limit) = parser.after source (n + 1) :=
        fun hphase => after_of_halted hphase (Nat.le_add_right _ _)
      rcases status_cases running with ⟨hstatus, hphase⟩ | ⟨hstatus, hphase⟩ | ⟨e, hstatus, hphase⟩
      · rw [hstatus, ← hrun]
        exact ih (hrun ▸ hphase)
      · rw [hhalted (by rw [hphase]; decide), hrun, hphase, hstatus]
      · rw [hhalted (by rw [hphase]; decide), hrun, hphase, hstatus]
        exact ⟨e, rfl⟩

theorem running_start (parser : Parser τ ε) (source : TokenSource) : (parser.start source).phase = .running := by
  rw [start, Run.begin_eq]
  rfl

theorem parseWithin_eq_none_iff {limit : Nat} :
    parser.parseWithin source limit = none ↔ (parser.after source limit).run.phase = .running := by
  have h := runWithin_after (n := 0) limit (running_start parser source)
  rw [Nat.zero_add] at h
  change parser.runWithin source limit (parser.after source 0).run = none ↔ _
  cases hphase : (parser.after source limit).run.phase <;> rw [hphase] at h
  · exact ⟨fun _ => rfl, fun _ => h⟩
  · exact ⟨fun hnone => (by rw [hnone] at h; cases h), fun hne => nomatch hne⟩
  · obtain ⟨e, h⟩ := h
    exact ⟨fun hnone => (by rw [hnone] at h; cases h), fun hne => nomatch hne⟩

theorem parseWithin_of_accepted {limit : Nat} (h : (parser.after source limit).run.phase = .accepted) :
    parser.parseWithin source limit =
      some ((parser.after source limit).run, .ok (parser.after source limit).run.root) := by
  have hrun := runWithin_after (n := 0) limit (running_start parser source)
  rw [Nat.zero_add, h] at hrun
  exact hrun

/-- A parse with a result has come to its end within its limit. -/
theorem accepted_of_parseWithin {limit : Nat} {last : Run τ} {root : Option τ}
    (h : parser.parseWithin source limit = some (last, .ok root)) :
    (parser.after source limit).run = last ∧ last.phase = .accepted ∧ last.root = root := by
  have hrun := runWithin_after (n := 0) limit (running_start parser source)
  rw [Nat.zero_add] at hrun
  change parser.runWithin source limit (parser.after source 0).run = _ at h
  cases hphase : (parser.after source limit).run.phase <;> rw [hphase] at hrun
  · rw [h] at hrun
    cases hrun
  · rw [h] at hrun
    cases hrun
    exact ⟨rfl, hphase, rfl⟩
  · obtain ⟨e, hrun⟩ := hrun
    rw [h] at hrun
    cases hrun

/-- Two points at which a run does not go on any more are the same. -/
theorem after_eq_of_halted {n m : Nat} (halted : (parser.after source n).run.phase ≠ .running)
    (halted' : (parser.after source m).run.phase ≠ .running) : parser.after source n = parser.after source m := by
  rcases Nat.le_total n m with hle | hle
  · exact (after_of_halted halted hle).symm
  · exact after_of_halted halted' hle

/-- A parse that fails does so at a step of a run that went on before. -/
theorem exists_step_of_parseWithin_error {limit : Nat} {last : Run τ} {e : ParseError ε}
    (h : parser.parseWithin source limit = some (last, .error e)) :
    ∃ n, (parser.after source n).run.phase = .running ∧
      (parser.step source (parser.after source n).run).2 = .error e := by
  have hsome : ∀ n, (parser.after source n).run.phase = .running →
      parser.runWithin source limit (parser.after source n).run = some (last, .error e) →
      ∃ m, (parser.after source m).run.phase = .running ∧
        (parser.step source (parser.after source m).run).2 = .error e := by
    clear h
    induction limit with
    | zero =>
        intro n _ h
        cases h
    | succ limit ih =>
        intro n running h
        rw [runWithin, ← Prod.eta (parser.step source (parser.after source n).run)] at h
        rcases status_cases running with ⟨hstatus, hphase⟩ | ⟨hstatus, _⟩ | ⟨e', hstatus, _⟩
        · rw [hstatus] at h
          exact ih (n + 1) hphase h
        · rw [hstatus] at h
          cases h
        · rw [hstatus] at h
          cases h
          exact ⟨n, running, hstatus⟩
  exact hsome 0 (running_start parser source) h

end Parser

end PredictiveParsing
