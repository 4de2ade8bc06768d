import PredictiveParsing.Proofs.Parser.Invariant

/-! # Runs step by step

A run that goes on is known by its history and its stack: what it sees of its source, and so what it predicts, depends
on the tokens that have been consumed and on nothing else. From a given history and stack each move leads to the next
one. -/

namespace PredictiveParsing

namespace Parser

variable {τ ε : Type} {parser : Parser τ ε} {source : TokenSource} {n m j i : Nat} {u : List Terminal}
  {ids later : List ProductionId} {stack other : List Symbol}

/-- After `n` steps the run goes on, with a given history and a given stack. -/
structure At (parser : Parser τ ε) (source : TokenSource) (n : Nat) (history : History) (stack : List Symbol) :
    Prop where
  running : (parser.after source n).run.phase = .running
  history : (parser.after source n).history = history
  stack : (parser.after source n).run.stack = stack

theorem at_start (parser : Parser τ ε) (source : TokenSource) :
    parser.At source 0 ⟨[], 0, []⟩ [.nonterminal parser.grammar.start, .terminal .endMarker] := by
  refine ⟨running_start parser source, rfl, ?_⟩
  rw [after, start, Run.begin_eq]
  rfl

namespace At

section

variable (pos : 0 < parser.k) (h : parser.At source n ⟨u, j, ids⟩ stack)
include pos h

theorem window : (parser.after source n).run.window = source.terminalsFrom u.length parser.k := by
  rw [(feeds_after pos h.running).reads.window, h.history]

theorem emptyToken : (parser.after source n).run.emptyToken = source.spoiled (u.length + parser.k) := by
  rw [(feeds_after pos h.running).reads.informed.emptyToken, h.history]

theorem front : (parser.after source n).run.front = source.terminalAt u.length := by
  rw [(feeds_after pos h.running).front_eq pos, h.history]

theorem predict_eq (a : Nonterminal) :
    parser.predict (parser.after source n).run a =
      (parser.table.lookup a (.ofTerminals (source.terminalsFrom u.length parser.k))).bind parser.grammar.get? := by
  rw [predict, Run.lookahead, h.window pos]

/-- Once an end marker has been passed the input is at its end. -/
theorem ended (hne : j ≠ 0) : source.terminalAt u.length = .endMarker := by
  have hended := (feeds_after pos h.running).ended
  rw [h.history] at hended
  exact hended hne

/-- What comes behind the end markers that have been passed comes next, which is only possible for an end marker if
there are any. -/
theorem comes {t : Terminal} (comes : source.terminalAt (u.length + j) = t) :
    source.terminalAt u.length = t ∧ (t ≠ .endMarker → j = 0) := by
  by_cases hj : j = 0
  · subst hj
    exact ⟨comes, fun _ => rfl⟩
  · have hend := h.ended pos hj
    have hlater := TokenSource.terminalAt_eq_endMarker_of_le hend (Nat.le_add_right u.length j)
    rw [comes] at hlater
    exact ⟨hend.trans hlater.symm, fun hne => absurd hlater hne⟩

end

theorem next (h : parser.At source n ⟨u, j, ids⟩ stack) {history : History} {run : Run τ}
    (moves : parser.Moves source ⟨(parser.after source n).run, ⟨u, j, ids⟩⟩ ⟨run, history⟩)
    (running : run.phase = .running) : parser.At source (n + 1) history run.stack := by
  rw [← h.history] at moves
  have hnext : parser.after source (n + 1) = ⟨run, history⟩ := next_of_moves h.running moves
  exact ⟨by rw [hnext]; exact running, by rw [hnext], by rw [hnext]⟩

variable (pos : 0 < parser.k) (unspoiled : source.spoiled (u.length + parser.k) = false)
include pos unspoiled

theorem consume {t : Terminal} (h : parser.At source n ⟨u, j, ids⟩ (.terminal t :: stack)) (plain : t ≠ .endMarker)
    (comes : source.terminalAt u.length = t) : parser.At source (n + 1) ⟨u ++ [t], j, ids⟩ stack := by
  have hnext := h.next (.consume ((h.emptyToken pos).trans unspoiled) h.stack plain ((h.front pos).trans comes))
    ((Run.phase_advance _ _).trans h.running)
  rwa [Run.stack_advance] at hnext

theorem pass (h : parser.At source n ⟨u, j, ids⟩ (.terminal .endMarker :: stack))
    (comes : source.terminalAt u.length = .endMarker) (more : stack.all Symbol.isEnd = false) :
    parser.At source (n + 1) ⟨u, j + 1, ids⟩ stack :=
  h.next (.pass ((h.emptyToken pos).trans unspoiled) h.stack ((h.front pos).trans comes) more) h.running

theorem expand (total : ∀ root id, ∃ root', parser.action root id = .ok root') {a : Nonterminal} {p : Production}
    (h : parser.At source n ⟨u, j, ids⟩ (.nonterminal a :: stack))
    (predicted : parser.predict (parser.after source n).run a = some p) :
    parser.At source (n + 1) ⟨u, j, ids ++ [p.id]⟩ (p.body ++ stack) := by
  obtain ⟨root, hroot⟩ := total (parser.after source n).run.root p.id
  exact h.next (.expand ((h.emptyToken pos).trans unspoiled) h.stack predicted hroot) h.running

/-- With nothing but end markers on the stack a run is accepted at the end of the input. -/
theorem accept (h : parser.At source n ⟨u, j, ids⟩ (.terminal .endMarker :: stack))
    (comes : source.terminalAt u.length = .endMarker) (last : stack.all Symbol.isEnd = true) :
    (parser.after source (n + 1)).run.phase = .accepted ∧ (parser.after source (n + 1)).history = ⟨u, j, ids⟩ := by
  have hclean := (h.emptyToken pos).trans unspoiled
  have hfront := (h.front pos).trans comes
  obtain ⟨hrunning, hhistory, hstack⟩ := h
  rw [after]
  generalize parser.after source n = trace at *
  obtain ⟨⟨pulled, sourceDone, emptyToken, window, top, root, phase⟩, history⟩ := trace
  obtain rfl : phase = .running := hrunning
  obtain rfl : emptyToken = false := hclean
  obtain rfl : top = _ := hstack
  obtain rfl : history = _ := hhistory
  have hwindow : window.head?.getD .endMarker = .endMarker := hfront
  simp [Parser.next, record, step, stepEnd, Run.front, hwindow, last]

/-- End markers in front of other symbols are passed at the end of the input. -/
theorem pass_all {d : Nat} (h : parser.At source n ⟨u, j, ids⟩ (List.replicate d (.terminal .endMarker) ++ stack))
    (comes : d = 0 ∨ source.terminalAt u.length = .endMarker) (more : stack.all Symbol.isEnd = false) :
    parser.At source (n + d) ⟨u, j + d, ids⟩ stack := by
  induction d generalizing n j with
  | zero => exact h
  | succ d ih =>
      have hend := comes.resolve_left (Nat.succ_ne_zero d)
      have hmore : (List.replicate d (Symbol.terminal .endMarker) ++ stack).all Symbol.isEnd = false := by
        rw [List.all_append, more, Bool.and_false]
      have hnext := ih (h.pass pos unspoiled hend hmore) (Or.inr hend)
      rwa [Nat.add_assoc, Nat.add_assoc, Nat.add_comm 1 d] at hnext

end At

section

variable (pos : 0 < parser.k) (unspoiled : ∀ i, source.spoiled i = false)
include pos unspoiled

/-- The terminals in front of other symbols are read if they come in the input. -/
theorem At.read_all {v : List Terminal} (h : parser.At source n ⟨u, j, ids⟩ (v.map .terminal ++ stack))
    (comes : source.terminalsFrom (u.length + j) v.length = v) (more : stack.all Symbol.isEnd = false) :
    ∃ n' u' j', parser.At source n' ⟨u', j', ids⟩ stack ∧
      u' ++ List.replicate j' .endMarker = u ++ List.replicate j .endMarker ++ v := by
  induction v generalizing n u j with
  | nil => exact ⟨n, u, j, h, (List.append_nil _).symm⟩
  | cons t v ih =>
      rw [List.length_cons, TokenSource.terminalsFrom_succ] at comes
      obtain ⟨hfirst, hlater⟩ := List.cons.inj comes
      obtain ⟨hnext, hplain⟩ := h.comes pos hfirst
      by_cases ht : t = .endMarker
      · subst ht
        have hmore : (v.map Symbol.terminal ++ stack).all Symbol.isEnd = false := by
          rw [List.all_append, more, Bool.and_false]
        obtain ⟨n', u', j', hat, heq⟩ := ih (h.pass pos (unspoiled _) hnext hmore) hlater
        refine ⟨n', u', j', hat, ?_⟩
        rw [heq, List.replicate_succ']
        simp
      · obtain rfl := hplain ht
        obtain ⟨n', u', j', hat, heq⟩ := ih (h.consume pos (unspoiled _) ht hnext) (by simpa using hlater)
        refine ⟨n', u', j', hat, ?_⟩
        rw [heq]
        simp

/-- A run is accepted if the terminals on its stack are what is left of the input. -/
theorem At.accept_all {v : List Terminal}
    (h : parser.At source n ⟨u, j, ids⟩ (v.map .terminal ++ [.terminal .endMarker]))
    (comes : source.terminalsFrom (u.length + j) v.length = v)
    (last : source.terminalAt (u.length + j + v.length) = .endMarker) :
    ∃ n', (parser.after source n').run.phase = .accepted ∧ (parser.after source n').history.applied = ids := by
  induction v generalizing n u j with
  | nil =>
      obtain ⟨haccepted, hhistory⟩ := At.accept pos (unspoiled _) h (h.comes pos last).1 rfl
      exact ⟨n + 1, haccepted, by rw [hhistory]⟩
  | cons t v ih =>
      rw [List.length_cons, TokenSource.terminalsFrom_succ] at comes
      obtain ⟨hfirst, hlater⟩ := List.cons.inj comes
      obtain ⟨hnext, hplain⟩ := h.comes pos hfirst
      rw [List.length_cons, Nat.add_comm v.length 1, ← Nat.add_assoc] at last
      by_cases ht : t = .endMarker
      · subst ht
        cases hmore : (v.map Symbol.terminal ++ [Symbol.terminal .endMarker]).all Symbol.isEnd with
        | true =>
            obtain ⟨haccepted, hhistory⟩ := At.accept pos (unspoiled _) h hnext hmore
            exact ⟨n + 1, haccepted, by rw [hhistory]⟩
        | false => exact ih (h.pass pos (unspoiled _) hnext hmore) hlater last
      · obtain rfl := hplain ht
        exact ih (h.consume pos (unspoiled _) ht hnext) (by simpa using hlater) (by simpa using last)

end

end Parser

end PredictiveParsing
