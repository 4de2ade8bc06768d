import PredictiveParsing.Proofs.Parser.Invariant
import PredictiveParsing.Proofs.Table.Lookup

/-! # Prediction

With a nonterminal on top of its stack a run looks for the longest beginning of its lookahead by which the nonterminal
is known. If there is none the run fails: no alternative begins with what comes next. Otherwise it applies the
alternative that the table holds for this beginning. -/

namespace PredictiveParsing

namespace Parser

variable {τ ε : Type} {parser : Parser τ ε} {source : TokenSource} {run : Run τ} {a : Nonterminal}
  {rest : List Symbol} {p : Production} {id : ProductionId}

/-- What the application of a production to a run leads to whose top symbol has been taken: the action is called with
it, and unless the action fails the symbols to which it rewrites its head come onto the stack. -/
def apply (parser : Parser τ ε) (run : Run τ) (p : Production) : Outcome τ ε :=
  match parser.action run.root p.id with
  | .error e => fail run (.actionFailed p.id e)
  | .ok root => ({ run with root, stack := p.body ++ run.stack }, .ok .running)

theorem apply_ne_unexpectedToken (run : Run τ) (p : Production) (symbol : Symbol) (lookahead : Lookahead) :
    (parser.apply run p).2 ≠ .error (.unexpectedToken symbol lookahead) := by
  unfold apply
  split <;> simp [fail]

section Nonterminal

variable (running : run.phase = .running) (clean : run.emptyToken = false) (top : run.stack = .nonterminal a :: rest)
include running clean top

theorem step_of_nonterminal : parser.step source run = parser.stepNonterminal { run with stack := rest } a := by
  rw [step, running]
  dsimp only
  rw [clean, if_neg Bool.false_ne_true, top]

theorem step_of_predict_none (h : parser.predict run a = none) :
    parser.step source run = fail { run with stack := rest } (.unexpectedToken (.nonterminal a) run.lookahead) := by
  have hpredict : parser.predict { run with stack := rest } a = none := h
  rw [step_of_nonterminal running clean top, stepNonterminal, hpredict]
  rfl

theorem step_of_predict_some (h : parser.predict run a = some p) :
    parser.step source run = parser.apply { run with stack := rest } p := by
  have hpredict : parser.predict { run with stack := rest } a = some p := h
  rw [step_of_nonterminal running clean top, stepNonterminal, hpredict]
  rfl

theorem unexpected_iff_predict_eq_none :
    (∃ lookahead, (parser.step source run).2 = .error (.unexpectedToken (.nonterminal a) lookahead)) ↔
      parser.predict run a = none := by
  constructor
  · rintro ⟨lookahead, herror⟩
    by_contra hsome
    obtain ⟨p, hp⟩ := Option.ne_none_iff_exists'.mp hsome
    rw [step_of_predict_some running clean top hp] at herror
    exact apply_ne_unexpectedToken _ p _ lookahead herror
  · intro hnone
    rw [step_of_predict_none running clean top hnone]
    exact ⟨run.lookahead, rfl⟩

end Nonterminal

/-- What is looked up is the number of an alternative, which is predicted. -/
theorem exists_predict_of_lookup (hparser : parser.WellFormed) (h : parser.table.lookup a run.lookahead = some id) :
    ∃ p ∈ parser.grammar.productions, p.head = a ∧ p.id = id ∧ parser.predict run a = some p := by
  obtain ⟨n, hentry⟩ := Table.exists_get?_of_lookup h
  obtain ⟨p, mem, hhead, rfl⟩ := hparser.entries a _ id hentry
  refine ⟨p, mem, hhead, rfl, ?_⟩
  rw [predict, h]
  exact hparser.grammar.get?_id mem

theorem predict_eq_none_iff (hparser : parser.WellFormed) :
    parser.predict run a = none ↔ parser.table.lookup a run.lookahead = none := by
  constructor
  · intro hnone
    by_contra hsome
    obtain ⟨id, hid⟩ := Option.ne_none_iff_exists'.mp hsome
    obtain ⟨p, _, _, _, hp⟩ := exists_predict_of_lookup hparser hid
    rw [hnone] at hp
    cases hp
  · intro hnone
    rw [predict, hnone]
    rfl

variable {g : Grammar} {action : SemanticAction τ ε} {k : Nat}

/-- A step that comes upon a nonterminal finds it unexpected exactly if no beginning of the lookahead is a word by
which it is known. Otherwise the step applies the alternative that the table holds for the longest such beginning. -/
theorem predicts_by_longest_beginning (constructed : g.Constructed) (made : ofGrammar g action k = .ok parser)
    (source : TokenSource) {n : Nat} (running : (parser.after source n).run.phase = .running)
    (clean : (parser.after source n).run.emptyToken = false)
    (top : (parser.after source n).run.stack = .nonterminal a :: rest) :
    let run := (parser.after source n).run
    ∃ found, g.prediction k = .ok found ∧
      ((∃ lookahead, (parser.step source run).2 = .error (.unexpectedToken (.nonterminal a) lookahead)) ↔
        ∀ w, w.Begins run.lookahead → ¬found.Expects a w) ∧
      ((∃ w, w.Begins run.lookahead ∧ found.Expects a w) →
        ∃ w, found.ExpectsLongest a run.lookahead w ∧ ∃ p ∈ g.alternatives a, parser.table.get? a w = some p.id ∧
          parser.step source run = parser.apply { run with stack := rest } p) := by
  have hparser := wellFormed_of_ofGrammar constructed made
  obtain ⟨table, htable, rfl⟩ := ofGrammar_eq_ok_iff.mp made
  obtain ⟨found, hfound, _⟩ := Grammar.table_eq_ok_iff.mp htable
  have hg := constructed.wellFormed
  intro run
  have hnone : table.lookup a run.lookahead = none ↔ ∀ w, w.Begins run.lookahead → ¬found.Expects a w :=
    Grammar.lookup_table_eq_none_iff hg hfound htable
  refine ⟨found, hfound, ?_, ?_⟩
  · rw [unexpected_iff_predict_eq_none running clean top, predict_eq_none_iff hparser]
    exact hnone
  · rintro ⟨w, hbegins, hexpects⟩
    have hsome : table.lookup a run.lookahead ≠ none := fun h => hnone.mp h w hbegins hexpects
    obtain ⟨id, hid⟩ := Option.ne_none_iff_exists'.mp hsome
    obtain ⟨v, hlongest, hentry⟩ := (Grammar.lookup_table_eq_some_iff hg hfound htable).mp hid
    obtain ⟨p, mem, hhead, rfl, hpredicted⟩ := exists_predict_of_lookup hparser hid
    refine ⟨v, hlongest, p, hg.mem_alternatives_iff.mpr ⟨mem, hhead⟩, hentry, ?_⟩
    exact step_of_predict_some running clean top hpredicted

end Parser

namespace Grammar

/-- The grammar of a terminal 2 with or without a terminal 3 behind it. -/
def tailed : Grammar where
  vocabulary := ⟨4, 2⟩
  start := ⟨0⟩
  arena := #[⟨⟨0⟩, ⟨0⟩, [.terminal ⟨2⟩, .nonterminal ⟨1⟩]⟩, ⟨⟨1⟩, ⟨1⟩, [.terminal ⟨3⟩]⟩,
    ⟨⟨2⟩, ⟨1⟩, [.terminal .epsilon]⟩]
  index := .ofList [((⟨0⟩ : ProductionId), 0), (⟨1⟩, 1), (⟨2⟩, 2)]
  rules := .ofList [((⟨0⟩ : Nonterminal), #[0]), (⟨1⟩, #[1, 2])]

theorem build_tailed :
    build ⟨4, 2⟩ ⟨0⟩ [⟨⟨0⟩, [⟨⟨0⟩, [.terminal ⟨2⟩, .nonterminal ⟨1⟩]⟩]⟩, ⟨⟨1⟩, [⟨⟨1⟩, [.terminal ⟨3⟩]⟩, ⟨⟨2⟩, []⟩]⟩] =
      .ok tailed := by cbv

/-- Its table with a lookahead of two terminals, which the tail does not fill. -/
def tailedTable : Table where
  k := 2
  entries := .ofList [((⟨⟨0⟩, ⟨[⟨2⟩, ⟨3⟩]⟩⟩ : TableKey), (⟨0⟩ : ProductionId)), (⟨⟨1⟩, ⟨[⟨3⟩]⟩⟩, ⟨1⟩),
    (⟨⟨1⟩, ⟨[⟨1⟩]⟩⟩, ⟨2⟩)]

theorem table_tailed : tailed.table 2 = .ok tailedTable := by cbv

end Grammar

namespace Parser

theorem tailed_predicts_by_longest_beginning :
    let parser : Parser Unit Unit := ⟨.tailed, Grammar.tailedTable, .idle⟩
    let source : TokenSource := .ofList [some ⟨2⟩, some ⟨3⟩, some ⟨3⟩]
    let run := (parser.after source 2).run
    run.lookahead = ⟨[⟨3⟩, ⟨3⟩]⟩ ∧ Grammar.tailedTable.get? ⟨1⟩ ⟨[⟨3⟩, ⟨3⟩]⟩ = none ∧
      ∃ found, Grammar.tailed.prediction 2 = .ok found ∧ ∃ w, found.ExpectsLongest ⟨1⟩ run.lookahead w ∧
        ∃ p ∈ Grammar.tailed.alternatives ⟨1⟩, Grammar.tailedTable.get? ⟨1⟩ w = some p.id ∧
          parser.step source run = parser.apply { run with stack := [.terminal .endMarker] } p := by
  intro parser source run
  have hconstructed := Grammar.constructed_of_build Grammar.build_tailed
  have hmade : ofGrammar .tailed .idle 2 = .ok parser :=
    ofGrammar_eq_ok_iff.mpr ⟨_, Grammar.table_tailed, rfl⟩
  have htop : (parser.after source 2).run.stack = .nonterminal ⟨1⟩ :: [.terminal .endMarker] := rfl
  obtain ⟨found, hfound, _, happlies⟩ := predicts_by_longest_beginning hconstructed hmade source rfl rfl htop
  have hexpects : found.Expects ⟨1⟩ ⟨[⟨3⟩]⟩ := by
    rw [← Grammar.exists_get?_table_iff hconstructed.wellFormed hfound Grammar.table_tailed]
    exact ⟨⟨1⟩, by decide⟩
  exact ⟨rfl, by decide, found, hfound, happlies ⟨_, ⟨by decide, by decide⟩, hexpects⟩⟩

end Parser

end PredictiveParsing
