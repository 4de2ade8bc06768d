import PredictiveParsing.Proofs.Query.Consistency
import PredictiveParsing.Proofs.Table.Existence
import PredictiveParsing.Proofs.Table.LeftRecursion
import PredictiveParsing.Query.Analysis

/-! # Analyses in any order

The analyses of a grammar only request those of lower rank: FIRST and the nullable nonterminals request none, FOLLOW
requests these two, and the table all three. So no request runs into a cycle. In whatever order and how often the
analyses are requested, each answer is the one that a first request gets: the value of the analysis, which it
computes once, or its error, which it runs into again. -/

namespace PredictiveParsing

open Query

namespace Analysis

variable {g : Grammar} {k : Nat}

/-- What an analysis comes to. -/
def result (g : Grammar) (k : Nat) : (a : Analysis) → Except a.Error a.Value
  | nullable => .ok g.nullable
  | firsts => g.firstSets k
  | follows => (g.firstSets k).map fun first => g.followSets k first g.nullable
  | table => g.table k

/-- Above the ranks of the analyses that an analysis requests. -/
def rank : Analysis → Nat
  | nullable => 0
  | firsts => 0
  | follows => 1
  | table => 2

/-- The analyses where the state is the log and beside it the tallies. -/
def loggedCompute (g : Grammar) (k : Nat) :
    Requests family (Counted Analysis (List LogEntry)) → Requests family (Counted Analysis (List LogEntry)) :=
  compute g k fun entries => Counted.change (· ++ entries)

/-- Requests an analysis while the runs of all analyses are counted. -/
def countedRequest (g : Grammar) (k : Nat) : Requests family (Counted Analysis (List LogEntry)) :=
  Query.countedRequest (loggedCompute g k)

/-- A grammar that can be analysed has a table just if its FIRST sets are found and the productions can be
registered. -/
theorem table_eq_of_admits (admitted : g.admits k = .ok ()) :
    g.table k = (g.firstSets k).mapError TableError.grammar >>= fun first =>
      Table.fill g ⟨k, g.nullable, first, g.followSets k first g.nullable⟩ := by
  rw [Grammar.table, Grammar.prediction, admitted]
  cases g.firstSets k <;> rfl

/-- Each analysis comes to its result if the requests of analyses of lower rank come to theirs. -/
theorem computes_result (admitted : g.admits k = .ok ()) :
    Computes (result g k) rank (loggedCompute g k) := by
  intro request a requested
  cases a with
  | nullable => exact .bind (.change _) (.pure _)
  | firsts =>
      refine .bind (.change _) ?_
      show Yields _ _ _ _ (g.firstSets k)
      cases g.firstSets k with
      | ok first => exact .pure first
      | error e => exact .throw e
  | follows =>
      have hfirsts := requested firsts (by decide)
      have hnullable := requested nullable (by decide)
      simp only [result] at hfirsts hnullable ⊢
      cases hsets : g.firstSets k with
      | ok first =>
          rw [hsets] at hfirsts
          exact .bind hfirsts (.bind hnullable (.bind (.change _) (.pure _)))
      | error e =>
          rw [hsets] at hfirsts
          exact .bind_error hfirsts
  | table =>
      have hfirsts := (requested firsts (by decide)).mapError TableError.grammar
      have hfollows := (requested follows (by decide)).mapError TableError.grammar
      have hnullable := (requested nullable (by decide)).mapError TableError.grammar
      simp only [result] at hfirsts hfollows hnullable ⊢
      rw [table_eq_of_admits admitted]
      cases hsets : g.firstSets k with
      | ok first =>
          rw [hsets] at hfirsts hfollows
          refine .bind hfirsts (.bind hfollows (.bind hnullable (.bind (.change _) ?_)))
          show Yields _ _ _ _ (Table.fill g ⟨k, g.nullable, first, g.followSets k first g.nullable⟩)
          cases Table.fill g ⟨k, g.nullable, first, g.followSets k first g.nullable⟩ with
          | ok filled => exact .pure filled
          | error e => exact .throw e
      | error e =>
          rw [hsets] at hfirsts
          exact .bind_error hfirsts

/-- Counting changes nothing that the analyses do. -/
theorem erases_loggedCompute (g : Grammar) (k : Nat)
    (request : Requests family (Counted Analysis (List LogEntry))) (plain : Requests family (List LogEntry))
    (h : ErasesAll request plain) :
    ErasesAll (loggedCompute g k request) (compute g k (fun entries log => log ++ entries) plain) := by
  intro a
  cases a with
  | nullable => exact .bind (.update _) fun _ => .pure _
  | firsts =>
      refine .bind (.update _) fun _ => ?_
      cases g.firstSets k with
      | ok first => exact .pure first
      | error e => exact .throw (.error e)
  | follows => exact .bind (h firsts) fun _ => .bind (h nullable) fun _ => .bind (.update _) fun _ => .pure _
  | table =>
      refine .bind ((h firsts).mapError _) fun first => .bind ((h follows).mapError _) fun follow => ?_
      refine .bind ((h nullable).mapError _) fun known => .bind (.update _) fun _ => ?_
      cases Table.fill g ⟨k, known, first, follow⟩ with
      | ok filled => exact .pure filled
      | error e => exact .throw (.error e)

theorem rank_lt (a : Analysis) : rank a < family.names.length := by
  cases a <;> decide

/-- What requests come to one after the other: the results, whatever is in the log at first. -/
theorem serve_request (admitted : g.admits k = .ok ()) (requests : List Analysis) (log : List LogEntry) :
    (serve (request g k) requests (.start log)).1 = requests.map fun a => ⟨a, (result g k a).mapError .error⟩ := by
  obtain ⟨after, hserve, _⟩ := serve_countedRequest (computes_result admitted) rank_lt requests
    (consistent_start log) fun _ => nofun
  have herase := serve_erase (erases_countedRequest (erases_loggedCompute g k)) requests
    (Context.start (Counted.start log))
  rw [hserve] at herase
  exact congrArg Prod.fst herase

/-- A first request comes to the result. -/
theorem run_request (admitted : g.admits k = .ok ()) (a : Analysis) (log : List LogEntry) :
    ((request g k a).run (.start log)).1 = (result g k a).mapError .error := by
  have hserve := serve_request admitted [a] log
  have hanswer : (⟨a, ((request g k a).run (.start log)).1⟩ : Answer family) =
      ⟨a, (result g k a).mapError .error⟩ := List.head_eq_of_cons_eq hserve
  exact eq_of_heq (Sigma.mk.inj hanswer).2

/-- Requests of analyses in one context, in any order. No request runs into a cycle, and each answer is that of the
same request as the first one in a context of its own. An analysis that has a value keeps it as soon as it has been
requested, and has then run to success once and never failed. An analysis that has an error keeps no mark, and has
failed as often as it has been requested. The tallies on which this rests change nothing of what is done. -/
theorem answers_do_not_depend_on_order (admitted : g.admits k = .ok ()) (requests : List Analysis)
    (log : List LogEntry) :
    ∃ (answers : List (Answer family)) (after : Context family (Counted Analysis (List LogEntry))),
      serve (countedRequest g k) requests (.start (.start log)) = (answers, after) ∧
      serve (request g k) requests (.start log) = (answers, after.erase) ∧
      answers = requests.map (fun a => ⟨a, ((request g k a).run (.start [])).1⟩) ∧
      (∀ answer ∈ answers, answer.2 ≠ .error .cycle) ∧
      ∀ a, requests.count a ≤ (after.state.tallies a).requests ∧
        match result g k a with
        | .ok value =>
          after.marks a = (if (after.state.tallies a).requests = 0 then .idle else .finished value) ∧
            (after.state.tallies a).successes = min (after.state.tallies a).requests 1 ∧
            (after.state.tallies a).failures = 0
        | .error _ =>
          after.marks a = .idle ∧ (after.state.tallies a).successes = 0 ∧
            (after.state.tallies a).failures = (after.state.tallies a).requests := by
  obtain ⟨after, hserve, hconsistent, hrest, hcount⟩ := serve_countedRequest (computes_result admitted) rank_lt
    requests (consistent_start log) fun _ => nofun
  have herase := serve_erase (erases_countedRequest (erases_loggedCompute g k)) requests
    (Context.start (Counted.start log))
  rw [hserve] at herase
  refine ⟨_, after, hserve, herase, ?_, ?_, fun a => ⟨?_, ?_⟩⟩
  · exact List.map_congr_left fun a _ => by rw [run_request admitted a []]
  · intro answer mem
    obtain ⟨a, _, rfl⟩ := List.mem_map.mp mem
    cases result g k a <;> nofun
  · have := hcount a
    omega
  · have haccounts := hconsistent a
    cases hresult : result g k a with
    | ok value =>
        rw [hresult] at haccounts
        exact haccounts.of_ok (hrest a)
    | error e =>
        rw [hresult] at haccounts
        exact haccounts.of_error (hrest a)

/-- Requests of analyses of a left recursive grammar: FIRST and the table fail each time, and the nullable
nonterminals are found once between the failures. -/
theorem answers_of_winding_do_not_depend_on_order :
    Grammar.winding.admits 1 = .ok () ∧
      ∃ (answers : List (Answer family)) (after : Context family (Counted Analysis (List LogEntry))),
        serve (countedRequest Grammar.winding 1) [table, nullable, firsts, nullable] (.start (.start [])) =
          (answers, after) ∧
        answers = [⟨table, .error (.error (.grammar (.leftRecursion ⟨0⟩)))⟩, ⟨nullable, .ok ∅⟩,
          ⟨firsts, .error (.error (.leftRecursion ⟨0⟩))⟩, ⟨nullable, .ok ∅⟩] ∧
        (after.marks firsts = .idle ∧ 0 < (after.state.tallies firsts).failures) ∧
        after.marks nullable = .finished ∅ ∧ (after.state.tallies nullable).successes = 1 := by
  have hadmits : Grammar.winding.admits 1 = .ok () := by cbv
  have hnullable : result Grammar.winding 1 nullable = .ok ∅ := by cbv
  have hfirsts : result Grammar.winding 1 firsts = .error (.leftRecursion ⟨0⟩) := by cbv
  have htable : result Grammar.winding 1 table = .error (.grammar (.leftRecursion ⟨0⟩)) := by cbv
  obtain ⟨answers, after, hserve, _, hanswers, _, haccounts⟩ :=
    answers_do_not_depend_on_order hadmits [table, nullable, firsts, nullable] []
  refine ⟨hadmits, answers, after, hserve, ?_, ?_, ?_⟩
  · rw [hanswers]
    simp only [List.map_cons, List.map_nil, run_request hadmits, hnullable, hfirsts, htable]
    rfl
  · obtain ⟨hcount, haccount⟩ := haccounts firsts
    rw [hfirsts] at haccount
    obtain ⟨hmark, _, hfailures⟩ := haccount
    refine ⟨hmark, ?_⟩
    rw [hfailures]
    exact hcount
  · obtain ⟨hcount, haccount⟩ := haccounts nullable
    rw [hnullable] at haccount
    obtain ⟨hmark, hsuccesses, _⟩ := haccount
    have hrequested : 2 ≤ (after.state.tallies nullable).requests := hcount
    rw [if_neg (by omega)] at hmark
    exact ⟨hmark, by omega⟩

end Analysis

end PredictiveParsing
