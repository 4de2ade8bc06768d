import PredictiveParsing.Proofs.Grammar.Leftmost
import PredictiveParsing.Proofs.Parser.Invariant

/-! # Soundness

As long as a run goes on, the tokens that it has consumed, the end markers that it has passed and the stack above the
bottom end marker make a sentential form, and the productions that have been applied are its leftmost derivation.
What the action has built is the fold of its calls. A run that is accepted has therefore derived its whole input. -/

namespace PredictiveParsing

/-- Whether the tokens of a source up to its first end marker, or up to its end, are those of a word. -/
structure TokenSource.Yields (source : TokenSource) (w : List Terminal) : Prop where
  tokens : ∀ (i : Nat) (h : i < w.length), source i = some w[i]
  plain : ∀ t ∈ w, t ≠ .epsilon ∧ t ≠ .endMarker
  ending : source w.length = none ∨ source w.length = some .endMarker

/-- The consumed tokens and the end markers that have been passed, in front of what is left to derive. -/
def History.form (history : History) (rest : List Symbol) : List Symbol :=
  history.consumed.map .terminal ++ (List.replicate history.ended (.terminal .endMarker) ++ rest)

namespace Parser

variable {τ ε : Type} {parser : Parser τ ε} {source : TokenSource} {trace trace' : Trace τ}

/-- The productions that have been applied are a leftmost derivation of the form that the stack completes. -/
def Derived (parser : Parser τ ε) (trace : Trace τ) : Prop :=
  ∃ rest, trace.run.stack = rest ++ [.terminal .endMarker] ∧
    parser.grammar.deriveByIds trace.history.applied [.nonterminal parser.grammar.start] = some (trace.history.form rest)

/-- The root is what the calls of the action for the productions that have been applied make out of nothing. -/
def Built (parser : Parser τ ε) (trace : Trace τ) : Prop :=
  trace.history.applied.foldlM parser.action none = .ok trace.run.root

theorem derived_start (parser : Parser τ ε) (source : TokenSource) : parser.Derived (parser.after source 0) := by
  refine ⟨[.nonterminal parser.grammar.start], ?_, rfl⟩
  rw [after, start, Run.begin_eq]
  rfl

theorem form_terminals (history : History) (rest : List Symbol) :
    history.form rest = (history.consumed ++ List.replicate history.ended Terminal.endMarker).map .terminal ++ rest := by
  simp [History.form]

theorem Derived.moves (h : parser.Derived trace) (hparser : parser.WellFormed) (feeds : parser.Feeds source trace)
    (moves : parser.Moves source trace trace') : parser.Derived trace' := by
  obtain ⟨rest, hstack, hderive⟩ := h
  have hended := feeds.ended
  have hfront := feeds.front_eq hparser.pos
  cases moves with
  | @pass run history tail clean top front more =>
      rw [show run.stack = _ from hstack, List.append_eq_cons_iff] at top
      rcases top with ⟨rfl, heq⟩ | ⟨below, rfl, rfl⟩
      · cases heq
        cases more
      · refine ⟨below, rfl, hderive.trans ?_⟩
        simp [History.form, List.replicate_succ']
  | @consume run history t tail clean top plain front =>
      have hzero : history.ended = 0 := by
        by_contra hne
        rw [hended hne, front] at hfront
        exact plain hfront
      rw [show run.stack = _ from hstack, List.append_eq_cons_iff] at top
      rcases top with ⟨rfl, heq⟩ | ⟨below, rfl, rfl⟩
      · cases heq
        exact absurd rfl plain
      · refine ⟨below, Run.stack_advance source _, hderive.trans ?_⟩
        simp [History.form, hzero]
  | @expand run history a tail p root clean top predicted built =>
      obtain ⟨hp, rfl⟩ := mem_of_predict hparser predicted
      rw [show run.stack = _ from hstack, List.append_eq_cons_iff] at top
      rcases top with ⟨rfl, heq⟩ | ⟨below, rfl, rfl⟩
      · cases heq
      · refine ⟨p.body ++ below, by rw [List.append_assoc], ?_⟩
        rw [Grammar.deriveByIds_concat hderive, form_terminals, form_terminals]
        exact Grammar.replaceById_head hparser.grammar hp _ below

theorem Built.moves (h : parser.Built trace) (moves : parser.Moves source trace trace') : parser.Built trace' := by
  unfold Built at *
  cases moves with
  | pass => exact h
  | consume =>
      rw [Run.root_advance]
      exact h
  | expand clean top predicted built =>
      rw [List.foldlM_append, bind_eq_ok_iff]
      refine ⟨_, h, ?_⟩
      rw [List.foldlM_cons, built]
      rfl

/-- What ties a run that goes on to its source, to the grammar and to the action. -/
structure Invariant (parser : Parser τ ε) (source : TokenSource) (trace : Trace τ) : Prop where
  feeds : parser.Feeds source trace
  derived : parser.Derived trace
  built : parser.Built trace

theorem invariant_after (hparser : parser.WellFormed) {n : Nat}
    (running : (parser.after source n).run.phase = .running) : parser.Invariant source (parser.after source n) := by
  apply running_induction (P := parser.Invariant source) _ _ running
  · refine ⟨feeds_start parser source, derived_start parser source, ?_⟩
    rw [Built, after, start, Run.begin_eq]
    rfl
  · intro trace trace' h moves
    exact ⟨h.feeds.moves hparser.pos moves, h.derived.moves hparser h.feeds moves, h.built.moves moves⟩

/-- A run that does not go on any more has come to its end by a step of a run that went on before. -/
theorem exists_before_halted {n : Nat} (halted : (parser.after source n).run.phase ≠ .running) :
    ∃ m, (parser.after source m).run.phase = .running ∧
      parser.after source n = parser.next source (parser.after source m) := by
  induction n with
  | zero => exact absurd (running_start parser source) halted
  | succ n ih =>
      by_cases hrunning : (parser.after source n).run.phase = .running
      · exact ⟨n, hrunning, rfl⟩
      · rw [after_of_halted hrunning (Nat.le_succ n)]
        exact ih hrunning

/-- A run is accepted by a step of a run that went on before. -/
theorem exists_before_accepted {n : Nat} (accepted : (parser.after source n).run.phase = .accepted) :
    ∃ m, (parser.after source m).run.phase = .running ∧
      parser.after source n = parser.next source (parser.after source m) :=
  exists_before_halted (by rw [accepted]; decide)

/-- With the end marker next and no epsilon marker met, what has been consumed is the whole input. -/
theorem Feeds.yields (feeds : parser.Feeds source trace) (pos : 0 < parser.k) (clean : trace.run.emptyToken = false)
    (front : trace.run.front = .endMarker) : source.Yields trace.history.consumed := by
  rw [feeds.front_eq pos, TokenSource.terminalAt_eq_endMarker_iff] at front
  rcases source.endsAfter_or_endless with ⟨tokens, h⟩ | hendless
  · obtain ⟨hle, hconsumed⟩ := feeds.consumed_eq_take h
    rw [h.stopped_eq, decide_eq_true_eq] at front
    rw [List.take_of_length_le (by omega)] at hconsumed
    rw [feeds.reads.informed.emptyToken, h.spoiled_eq, decide_eq_true (by omega), Bool.true_and] at clean
    rw [hconsumed]
    exact ⟨h.answers, h.plain, h.ending_of_plain clean⟩
  · rw [hendless.stopped_eq] at front
    cases front

/-- At its last step a run that is accepted has nothing but end markers left to derive. -/
theorem accepted_after (hparser : parser.WellFormed) {n : Nat}
    (accepted : (parser.after source n).run.phase = .accepted) :
    ∃ i, parser.grammar.deriveByIds (parser.after source n).history.applied [.nonterminal parser.grammar.start] =
        some ((parser.after source n).history.consumed.map .terminal ++ List.replicate i (.terminal .endMarker)) ∧
      parser.Built (parser.after source n) ∧ source.Yields (parser.after source n).history.consumed := by
  obtain ⟨m, hrunning, hlast⟩ := exists_before_accepted accepted
  rw [hlast] at accepted ⊢
  obtain ⟨hfeeds, ⟨rest, hstack, hderive⟩, hbuilt⟩ := invariant_after hparser hrunning
  obtain ⟨hnext, hclose⟩ := accepted_cases hrunning accepted
  have hne : (parser.after source m).run.stack ≠ [] := by
    rw [hstack]
    exact List.concat_ne_nil _ _
  obtain ⟨hclean, hfront, hends⟩ := hclose hne
  have hrest : rest = List.replicate rest.length (.terminal .endMarker) := by
    refine List.eq_replicate_of_mem fun symbol hsymbol => ?_
    rw [hstack, List.all_eq_true] at hends
    have hend := hends symbol (List.mem_append_left _ hsymbol)
    cases symbol with
    | terminal t => rw [Terminal.isEnd_iff.mp hend]
    | nonterminal a => cases hend
  rw [hnext]
  refine ⟨(parser.after source m).history.ended + rest.length, ?_, hbuilt, hfeeds.yields hparser.pos hclean hfront⟩
  rw [List.replicate_add, ← hrest]
  exact hderive

variable {g : Grammar} {action : SemanticAction τ ε} {k : Nat}

/-- The productions that a run applies are a leftmost derivation of what it has consumed and what is on its stack,
and of its whole input once it is accepted; the root is what the action has made of them. -/
theorem leftmost_derivation_of_run (constructed : g.Constructed) (made : ofGrammar g action k = .ok parser)
    (source : TokenSource) (n : Nat) :
    let trace := parser.after source n
    (trace.run.phase = .running →
      ∃ rest, trace.run.stack = rest ++ [.terminal .endMarker] ∧
        g.deriveByIds trace.history.applied [.nonterminal g.start] =
          some (trace.history.consumed.map .terminal ++
            (List.replicate trace.history.ended (.terminal .endMarker) ++ rest)) ∧
        trace.history.applied.foldlM action none = .ok trace.run.root) ∧
    (trace.run.phase = .accepted →
      source.Yields trace.history.consumed ∧
        ∃ i, g.deriveByIds trace.history.applied [.nonterminal g.start] =
            some (trace.history.consumed.map .terminal ++ List.replicate i (.terminal .endMarker)) ∧
          trace.history.applied.foldlM action none = .ok trace.run.root) := by
  have hparser := wellFormed_of_ofGrammar constructed made
  obtain ⟨table, htable, rfl⟩ := ofGrammar_eq_ok_iff.mp made
  constructor
  · intro running
    obtain ⟨_, ⟨rest, hstack, hderive⟩, hbuilt⟩ := invariant_after hparser running
    exact ⟨rest, hstack, hderive, hbuilt⟩
  · intro accepted
    obtain ⟨i, hderive, hbuilt, hyields⟩ := accepted_after hparser accepted
    exact ⟨hyields, i, hderive, hbuilt⟩

theorem leftmost_derivation_of_nested_run :
    let parser : Parser Unit Unit := ⟨.nested, Grammar.nestedTable, .idle⟩
    let trace := parser.after (.ofList [some ⟨2⟩, some ⟨3⟩]) 6
    trace.history = ⟨[⟨2⟩, ⟨3⟩], 0, [⟨0⟩, ⟨1⟩, ⟨2⟩]⟩ ∧ ∃ i,
      Grammar.nested.deriveByIds trace.history.applied [.nonterminal Grammar.nested.start] =
        some (trace.history.consumed.map .terminal ++ List.replicate i (.terminal .endMarker)) := by
  have hmade : ofGrammar .nested .idle 1 = .ok (⟨.nested, Grammar.nestedTable, .idle⟩ : Parser Unit Unit) :=
    ofGrammar_eq_ok_iff.mpr ⟨_, Grammar.table_nested, rfl⟩
  have hrun := leftmost_derivation_of_run Grammar.constructed_nested hmade (.ofList [some ⟨2⟩, some ⟨3⟩]) 6
  obtain ⟨_, i, hderive, _⟩ := hrun.2 rfl
  exact ⟨rfl, i, hderive⟩

end Parser

end PredictiveParsing
