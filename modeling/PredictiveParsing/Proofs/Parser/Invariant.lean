import PredictiveParsing.Proofs.Parser.History
import PredictiveParsing.Proofs.Parser.Source
import PredictiveParsing.Proofs.Table.Registration

/-! # Invariants of runs

The parser of a constructed grammar only ever predicts alternatives of the nonterminal that is asked for. What holds
before the first step and is kept by every move holds as long as a run goes on. The first invariant of this kind ties
the history of a run to its source: what has been consumed are the first terminals of the source, none of them an end
marker, and once an end marker has been taken from the stack nothing but end markers comes next. -/

namespace PredictiveParsing

namespace Parser

variable {τ ε : Type} {parser : Parser τ ε} {source : TokenSource} {g : Grammar} {action : SemanticAction τ ε} {k : Nat}

/-- A well formed grammar, a lookahead that is not empty, and a table that sends nonterminals to alternatives. -/
structure WellFormed (parser : Parser τ ε) : Prop where
  grammar : parser.grammar.WellFormed
  pos : 0 < parser.k
  entries : ∀ (a : Nonterminal) (w : Lookahead) (id : ProductionId), parser.table.get? a w = some id →
    ∃ p ∈ parser.grammar.productions, p.head = a ∧ p.id = id

theorem ofGrammar_eq_ok_iff :
    ofGrammar g action k = .ok parser ↔ ∃ table, g.table k = .ok table ∧ parser = ⟨g, table, action⟩ := by
  simp only [ofGrammar, bind_eq_ok_iff, pure_eq_ok_iff]
  exact exists_congr fun table => and_congr_right fun _ => eq_comm

theorem wellFormed_of_ofGrammar (hg : g.Constructed) (h : ofGrammar g action k = .ok parser) : parser.WellFormed := by
  obtain ⟨table, htable, rfl⟩ := ofGrammar_eq_ok_iff.mp h
  refine ⟨hg.wellFormed, ?_, fun a w id => Grammar.exists_of_get?_table htable⟩
  rw [Parser.k, Grammar.k_of_table htable]
  exact Grammar.pos_of_table htable

theorem k_of_ofGrammar (h : ofGrammar g action k = .ok parser) : parser.k = k := by
  obtain ⟨table, htable, rfl⟩ := ofGrammar_eq_ok_iff.mp h
  exact Grammar.k_of_table htable

/-- What is predicted for a nonterminal is an alternative of it. -/
theorem mem_of_predict (hparser : parser.WellFormed) {run : Run τ} {a : Nonterminal} {p : Production}
    (h : parser.predict run a = some p) : p ∈ parser.grammar.productions ∧ p.head = a := by
  obtain ⟨id, hlookup, hget⟩ := Option.bind_eq_some_iff.mp h
  obtain ⟨n, hentry⟩ := Table.exists_get?_of_lookup hlookup
  obtain ⟨q, hq, hhead, hid⟩ := hparser.entries a _ id hentry
  rw [← hid, hparser.grammar.get?_id hq] at hget
  cases hget
  exact ⟨hq, hhead⟩

/-- What holds before the first step and is kept by every move holds as long as the run goes on. -/
theorem running_induction {P : Trace τ → Prop} (start : P (parser.after source 0))
    (move : ∀ trace trace', P trace → parser.Moves source trace trace' → P trace') {n : Nat}
    (running : (parser.after source n).run.phase = .running) : P (parser.after source n) := by
  induction n with
  | zero => exact start
  | succ n ih =>
      have hbefore := running_of_le running (Nat.le_succ n)
      exact move _ _ (ih hbefore) (moves_next hbefore running)

/-- The history of a run agrees with its source, and the run with both. -/
structure Feeds (parser : Parser τ ε) (source : TokenSource) (trace : Trace τ) : Prop where
  reads : trace.run.Reads source parser.k trace.history.consumed.length
  consumed : trace.history.consumed = source.terminalsFrom 0 trace.history.consumed.length
  tokens : ∀ t ∈ trace.history.consumed, t ≠ .endMarker
  ended : trace.history.ended ≠ 0 → source.terminalAt trace.history.consumed.length = .endMarker

theorem feeds_start (parser : Parser τ ε) (source : TokenSource) : parser.Feeds source (parser.after source 0) := by
  refine ⟨?_, rfl, by simp [after], by simp [after]⟩
  rw [after, start, Run.begin_eq, List.length_nil]
  exact ⟨⟨by rw [Nat.zero_add]; rfl, by rw [Nat.zero_add]; rfl, by rw [Nat.zero_add]; rfl⟩, rfl⟩

namespace Feeds

variable {trace trace' : Trace τ}

/-- The terminal that comes next is the first one that has not been consumed. -/
theorem front_eq (h : parser.Feeds source trace) (pos : 0 < parser.k) :
    trace.run.front = source.terminalAt trace.history.consumed.length := by
  obtain ⟨k, hk⟩ := Nat.exists_eq_succ_of_ne_zero (Nat.ne_of_gt pos)
  have hreads := h.reads
  rw [hk] at hreads
  exact Run.front_eq hreads

/-- No end marker of the sequence has been consumed. -/
theorem length_consumed_le (h : parser.Feeds source trace) {n : Nat} (ended : source.terminalAt n = .endMarker) :
    trace.history.consumed.length ≤ n := by
  by_contra hlt
  have hmem : source.terminalAt n ∈ trace.history.consumed := by
    rw [h.consumed, TokenSource.terminalsFrom]
    exact List.mem_map_of_mem (List.mem_range'_1.mpr ⟨Nat.zero_le n, by omega⟩)
  exact h.tokens _ hmem ended

/-- What has been consumed are tokens of the source, from the first one on. -/
theorem consumed_eq_take (h : parser.Feeds source trace) {tokens : List Terminal} (ends : source.EndsAfter tokens) :
    trace.history.consumed.length ≤ tokens.length ∧
      trace.history.consumed = tokens.take trace.history.consumed.length := by
  have hle : trace.history.consumed.length ≤ tokens.length := by
    apply h.length_consumed_le
    rw [ends.terminalAt_eq, List.getElem?_eq_none (Nat.le_refl _), Option.getD_none]
  have hconsumed := h.consumed
  rw [ends.terminalsFrom_eq, List.drop_zero, List.take_append_of_le_length hle] at hconsumed
  exact ⟨hle, hconsumed⟩

theorem moves (h : parser.Feeds source trace) (pos : 0 < parser.k) (moves : parser.Moves source trace trace') :
    parser.Feeds source trace' := by
  have hfront := h.front_eq pos
  obtain ⟨hreads, hconsumed, htokens, hended⟩ := h
  cases moves with
  | pass clean top front more =>
      refine ⟨hreads.withStack _ _, hconsumed, htokens, fun _ => ?_⟩
      rw [front] at hfront
      exact hfront.symm
  | @consume run history t rest clean top plain front =>
      rw [front] at hfront
      have hnext : source.terminalAt history.consumed.length = t := hfront.symm
      obtain ⟨k, hk⟩ := Nat.exists_eq_succ_of_ne_zero (Nat.ne_of_gt pos)
      refine ⟨?_, ?_, ?_, ?_⟩
      · rw [hk] at hreads ⊢
        rw [Run.advance_eq (hreads.withStack rest run.root), List.length_append]
        exact Run.reads_refreshed _
      · dsimp only at hconsumed ⊢
        rw [List.length_append, List.length_singleton, TokenSource.terminalsFrom_concat, ← hconsumed, Nat.zero_add,
          hnext]
      · intro s hs
        rcases List.mem_append.mp hs with hs | hs
        · exact htokens s hs
        · rw [List.mem_singleton.mp hs]
          exact plain
      · intro hne
        rw [hended hne] at hnext
        exact absurd hnext.symm plain
  | expand clean top predicted built =>
      exact ⟨hreads.withStack _ _, hconsumed, htokens, hended⟩

end Feeds

theorem feeds_after (pos : 0 < parser.k) {n : Nat} (running : (parser.after source n).run.phase = .running) :
    parser.Feeds source (parser.after source n) :=
  running_induction (feeds_start parser source) (fun _ _ h moves => h.moves pos moves) running

end Parser

end PredictiveParsing
