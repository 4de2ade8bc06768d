import PredictiveParsing.Proofs.Lookahead
import PredictiveParsing.Proofs.Parser.Simulation
import PredictiveParsing.Proofs.Parser.Soundness

/-! # Acceptance

A run of a word is simulated along a leftmost derivation: whatever terminals stand in front of the first nonterminal
are read, and the nonterminal is replaced. This goes through exactly if every production of the derivation is the one
that the table holds for the lookahead at its place. As each production puts just one word into FIRST, the table
misses lookaheads that other derivations need, and so a word of the language need not be accepted. -/

namespace PredictiveParsing

/-- The source of the tokens of a word. -/
def TokenSource.ofWord (w : List Terminal) : TokenSource := .ofList (w.map some)

/-- The next `k` terminals when the first `n` ones of a word have been consumed. -/
def Lookahead.at (k : Nat) (w : List Terminal) (n : Nat) : Lookahead :=
  .ofTerminals ((w.drop n ++ [Terminal.endMarker]).take k)

theorem Lookahead.at_append (k : Nat) (u v : List Terminal) : Lookahead.at k (u ++ v) u.length = .at k v 0 := by
  rw [Lookahead.at, List.drop_left, Lookahead.at, List.drop_zero]

namespace TokenSource

variable {w v : List Terminal} {c k : Nat}

theorem ofWord_eq (w : List Terminal) (i : Nat) : ofWord w i = w[i]? := by
  rw [ofWord, ofList, List.getElem?_map]
  cases w[i]? <;> rfl

theorem Yields.endsAfter {source : TokenSource} (h : source.Yields w) : source.EndsAfter w := by
  refine ⟨h.tokens, h.plain, ?_⟩
  rcases h.ending with hnone | hend
  · rw [stops, hnone, Option.all_none]
  · rw [stops, hend]
    rfl

section

variable (plain : ∀ t ∈ w, t ≠ .epsilon ∧ t ≠ .endMarker)
include plain

theorem endsAfter_ofWord : (ofWord w).EndsAfter w := by
  refine ⟨fun i h => ?_, plain, ?_⟩
  · rw [ofWord_eq, List.getElem?_eq_getElem h]
  · rw [stops, ofWord_eq, List.getElem?_eq_none (Nat.le_refl _), Option.all_none]

theorem spoiled_ofWord (n : Nat) : (ofWord w).spoiled n = false := by
  rw [(endsAfter_ofWord plain).spoiled_eq, ofWord_eq, List.getElem?_eq_none (Nat.le_refl _), Option.any_none,
    Bool.and_false]

/-- The window behind `c` tokens of a word, up to its first end marker. -/
theorem ofTerminals_terminalsFrom_ofWord (c k : Nat) :
    Lookahead.ofTerminals ((ofWord w).terminalsFrom c k) = .at k w c := by
  have hleft : ∀ t ∈ w.drop c, t ≠ .epsilon ∧ t ≠ .endMarker := fun t ht => plain t (List.mem_of_mem_drop ht)
  rw [(endsAfter_ofWord plain).ofTerminals_terminalsFrom, Lookahead.at,
    Lookahead.ofTerminals_take_append_endMarker hleft]

/-- Only the word itself is yielded by its source. -/
theorem eq_of_yields_ofWord (h : (ofWord w).Yields v) : v = w :=
  (endsAfter_ofWord plain).unique h.endsAfter

/-- A word and the end markers behind it come from the source of the word. -/
theorem terminalsFrom_ofWord (i : Nat) :
    (ofWord w).terminalsFrom 0 (w ++ List.replicate i Terminal.endMarker).length =
      w ++ List.replicate i .endMarker := by
  rw [(endsAfter_ofWord plain).terminalsFrom_eq, List.drop_zero, List.length_append, List.length_replicate,
    List.take_append, List.take_of_length_le (Nat.le_add_right _ _), Nat.add_sub_cancel_left, List.take_replicate,
    Nat.min_eq_left (Nat.le_add_left _ _)]

theorem at_add {j : Nat}
    (ended : j ≠ 0 → (ofWord w).terminalAt c = .endMarker) : Lookahead.at k w (c + j) = .at k w c := by
  by_cases hj : j = 0
  · rw [hj, Nat.add_zero]
  · have hend := ended hj
    rw [(endsAfter_ofWord plain).terminalAt_eq] at hend
    have hlength : w.length ≤ c := by
      by_contra hlt
      rw [List.getElem?_eq_getElem (Nat.lt_of_not_le hlt), Option.getD_some] at hend
      exact (plain _ (List.getElem_mem _)).2 hend
    rw [Lookahead.at, Lookahead.at, List.drop_eq_nil_of_le hlength, List.drop_eq_nil_of_le (by omega)]

end

end TokenSource

namespace Parser

variable {τ ε : Type} {parser : Parser τ ε} {w : List Terminal} {x y : List Symbol} {ids : List ProductionId}
  {id : ProductionId}

/-- Each production of a leftmost derivation is what the table holds for the lookahead at its place of a word. -/
def Follows (parser : Parser τ ε) (w : List Terminal) : List Symbol → List ProductionId → Prop
  | _, [] => True
  | x, id :: later =>
    (∃ (v : List Terminal) (a : Nonterminal) (rest : List Symbol), x = v.map .terminal ++ .nonterminal a :: rest ∧
      parser.table.lookup a (.at parser.k w v.length) = some id) ∧
    ∀ y, parser.grammar.replaceById x id = some y → parser.Follows w y later

theorem follows_concat (h : parser.Follows w x ids) (derived : parser.grammar.deriveByIds ids x = some y)
    (next : parser.Follows w y [id]) : parser.Follows w x (ids ++ [id]) := by
  induction ids generalizing x with
  | nil =>
      obtain rfl : x = y := Option.some.inj derived
      exact next
  | cons first later ih =>
      rw [Grammar.deriveByIds_cons, Option.bind_eq_some_iff] at derived
      obtain ⟨z, hz, derived⟩ := derived
      refine ⟨h.1, fun z' hz' => ?_⟩
      rw [hz] at hz'
      cases hz'
      exact ih (h.2 z hz) derived

/-- The table predicts what a run applies. -/
theorem lookup_of_predict (hparser : parser.WellFormed) {run : Run τ} {a : Nonterminal} {p : Production}
    (h : parser.predict run a = some p) : parser.table.lookup a run.lookahead = some p.id := by
  obtain ⟨id, hlookup, hget⟩ := Option.bind_eq_some_iff.mp h
  rw [hlookup, (hparser.grammar.get?_eq_some_iff.mp hget).2]

theorem follows_moves (hparser : parser.WellFormed) (plain : ∀ t ∈ w, t ≠ .epsilon ∧ t ≠ .endMarker)
    {trace trace' : Trace τ} (invariant : parser.Invariant (.ofWord w) trace)
    (h : parser.Follows w [.nonterminal parser.grammar.start] trace.history.applied)
    (moves : parser.Moves (.ofWord w) trace trace') :
    parser.Follows w [.nonterminal parser.grammar.start] trace'.history.applied := by
  obtain ⟨hfeeds, ⟨below, hstack, hderive⟩, _⟩ := invariant
  cases moves with
  | pass => exact h
  | consume => exact h
  | @expand run history a tail p root clean top predicted built =>
      rw [show run.stack = _ from hstack, List.append_eq_cons_iff] at top
      rcases top with ⟨_, heq⟩ | ⟨rest, rfl, rfl⟩
      · cases heq
      rw [form_terminals] at hderive
      refine follows_concat h hderive ⟨⟨_, a, rest, rfl, ?_⟩, fun _ _ => trivial⟩
      have hlookup := lookup_of_predict hparser predicted
      rw [Run.lookahead, hfeeds.reads.window, TokenSource.ofTerminals_terminalsFrom_ofWord plain] at hlookup
      rw [List.length_append, List.length_replicate, TokenSource.at_add plain hfeeds.ended]
      exact hlookup

theorem follows_after (hparser : parser.WellFormed) (plain : ∀ t ∈ w, t ≠ .epsilon ∧ t ≠ .endMarker) {n : Nat}
    (running : (parser.after (.ofWord w) n).run.phase = .running) :
    parser.Follows w [.nonterminal parser.grammar.start] (parser.after (.ofWord w) n).history.applied := by
  induction n with
  | zero => trivial
  | succ n ih =>
      have hbefore := running_of_le running (Nat.le_succ n)
      exact follows_moves hparser plain (invariant_after hparser hbefore) (ih hbefore) (moves_next hbefore running)

/-- A run that has been accepted has followed the table along a leftmost derivation of the word. -/
theorem follows_of_accepted (hparser : parser.WellFormed) (plain : ∀ t ∈ w, t ≠ .epsilon ∧ t ≠ .endMarker) {n : Nat}
    (accepted : (parser.after (.ofWord w) n).run.phase = .accepted) :
    ∃ i, parser.grammar.deriveByIds (parser.after (.ofWord w) n).history.applied
          [.nonterminal parser.grammar.start] = some (w.map .terminal ++ List.replicate i (.terminal .endMarker)) ∧
      parser.Follows w [.nonterminal parser.grammar.start] (parser.after (.ofWord w) n).history.applied := by
  obtain ⟨i, hderive, _, hyields⟩ := accepted_after hparser accepted
  rw [TokenSource.eq_of_yields_ofWord plain hyields] at hderive
  obtain ⟨m, hrunning, hlast⟩ := exists_before_accepted accepted
  refine ⟨i, hderive, ?_⟩
  rw [hlast] at accepted ⊢
  rw [(accepted_cases hrunning accepted).1]
  exact follows_after hparser plain hrunning

/-- A run follows a leftmost derivation of its word to the end if the table does. -/
theorem exists_accepted_of_follows (hparser : parser.WellFormed)
    (total : ∀ root id, ∃ root', parser.action root id = .ok root')
    (plain : ∀ t ∈ w, t ≠ .epsilon ∧ t ≠ .endMarker) {i n j : Nat} {u : List Terminal} {below : List Symbol}
    {later : List ProductionId} (h : parser.At (.ofWord w) n ⟨u, j, ids⟩ (below ++ [.terminal .endMarker]))
    (derive : parser.grammar.deriveByIds later ((u ++ List.replicate j Terminal.endMarker).map .terminal ++ below) =
      some ((w ++ List.replicate i Terminal.endMarker).map .terminal))
    (follows : parser.Follows w ((u ++ List.replicate j Terminal.endMarker).map .terminal ++ below) later) :
    ∃ n', (parser.after (.ofWord w) n').run.phase = .accepted ∧
      (parser.after (.ofWord w) n').history.applied = ids ++ later := by
  have hpos := hparser.pos
  have hunspoiled := TokenSource.spoiled_ofWord plain
  have hword := TokenSource.terminalsFrom_ofWord plain i
  induction later generalizing n u j ids below with
  | nil =>
      obtain ⟨v, hv, rfl⟩ := Grammar.exists_of_terminals_eq (Option.some.inj derive)
      have hlast : (TokenSource.ofWord w).terminalAt (w ++ List.replicate i Terminal.endMarker).length = .endMarker := by
        rw [(TokenSource.endsAfter_ofWord plain).terminalAt_eq, List.getElem?_eq_none (by simp), Option.getD_none]
      rw [hv] at hlast hword
      rw [← List.append_nil v] at hword
      have hcomes := TokenSource.terminalsFrom_of_append hword
      rw [List.length_append, List.length_replicate] at hcomes
      rw [List.length_append, List.length_append, List.length_replicate] at hlast
      rw [List.append_nil]
      exact h.accept_all hpos hunspoiled hcomes hlast
  | cons id later ih =>
      obtain ⟨⟨v, a, rest, hform, hlookup⟩, hlater⟩ := follows
      rw [Grammar.deriveByIds_cons, Option.bind_eq_some_iff] at derive
      obtain ⟨y, hy, derive⟩ := derive
      obtain ⟨p, hp, rfl, hreplace⟩ := Grammar.exists_of_replaceById hparser.grammar hy
      obtain ⟨v', rest', hform', rfl⟩ := Grammar.exists_of_replaceLeftmost hreplace
      obtain ⟨rfl, rfl, rfl⟩ := Grammar.terminals_nonterminal_inj (hform.symm.trans hform')
      obtain ⟨s, rfl, rfl⟩ := Grammar.exists_of_terminals_append hform
      -- The terminals in front of the nonterminal take part in no later step, so they begin the word.
      have hbegins := derive
      rw [Grammar.deriveByIds_terminals, Option.map_eq_some_iff] at hbegins
      obtain ⟨z, _, hend⟩ := hbegins
      obtain ⟨tail, hw, _⟩ := Grammar.exists_of_terminals_eq hend
      rw [hw, List.append_assoc] at hword
      have hcomes := TokenSource.terminalsFrom_of_append hword
      rw [List.length_append, List.length_replicate] at hcomes
      rw [List.append_assoc, List.cons_append] at h
      obtain ⟨n', u', j', hat, hread⟩ := h.read_all hpos hunspoiled hcomes rfl
      have hlength := congrArg List.length hread
      rw [List.length_append, List.length_replicate] at hlength
      have hpredict : parser.predict (parser.after (.ofWord w) n').run p.head = some p := by
        rw [hat.predict_eq hpos, TokenSource.ofTerminals_terminalsFrom_ofWord plain,
          ← TokenSource.at_add plain (hat.ended hpos), hlength, hlookup, Option.bind_some]
        exact hparser.grammar.get?_id hp
      have hnext := hat.expand hpos (hunspoiled _) total hpredict
      rw [← List.append_assoc] at hnext
      have hfollows := hlater _ hy
      rw [← hread] at derive hfollows
      obtain ⟨n₂, haccepted, happlied⟩ := ih hnext derive hfollows
      exact ⟨n₂, haccepted, by rw [happlied, List.append_assoc, List.singleton_append]⟩

theorem exists_accepted_of_leftmost (hparser : parser.WellFormed)
    (total : ∀ root id, ∃ root', parser.action root id = .ok root')
    (plain : ∀ t ∈ w, t ≠ .epsilon ∧ t ≠ .endMarker) {i : Nat}
    (derive : parser.grammar.deriveByIds ids [.nonterminal parser.grammar.start] =
      some ((w ++ List.replicate i Terminal.endMarker).map .terminal))
    (follows : parser.Follows w [.nonterminal parser.grammar.start] ids) :
    ∃ n, (parser.after (.ofWord w) n).run.phase = .accepted ∧ (parser.after (.ofWord w) n).history.applied = ids := by
  have hstart : parser.At (.ofWord w) 0 ⟨[], 0, []⟩
      ([.nonterminal parser.grammar.start] ++ [.terminal .endMarker]) := at_start parser (.ofWord w)
  exact exists_accepted_of_follows hparser total plain hstart derive follows

/-- Wherever a leftmost derivation comes to a nonterminal, the table holds every production by which some word can go
on, for the next terminals of that word. -/
def Covers (parser : Parser τ ε) : Prop :=
  ∀ (ids : List ProductionId) (u v : List Terminal) (p : Production) (rest : List Symbol),
    (∀ t ∈ u ++ v, t ≠ .epsilon ∧ t ≠ .endMarker) → p ∈ parser.grammar.productions →
    parser.grammar.deriveByIds ids [.nonterminal parser.grammar.start] =
      some (u.map .terminal ++ .nonterminal p.head :: rest) →
    parser.grammar.Derives (p.body ++ rest) (v.map .terminal) →
    parser.table.lookup p.head (.at parser.k v 0) = some p.id

/-- A table that covers the derivations is followed by all of them. -/
theorem follows_of_covers (hparser : parser.WellFormed) (covers : parser.Covers)
    (plain : ∀ t ∈ w, t ≠ .epsilon ∧ t ≠ .endMarker) {later : List ProductionId}
    (before : parser.grammar.deriveByIds ids [.nonterminal parser.grammar.start] = some x)
    (derive : parser.grammar.deriveByIds later x = some (w.map .terminal)) : parser.Follows w x later := by
  induction later generalizing ids x with
  | nil => trivial
  | cons id later ih =>
      rw [Grammar.deriveByIds_cons, Option.bind_eq_some_iff] at derive
      obtain ⟨y, hy, derive⟩ := derive
      obtain ⟨p, hp, rfl, hreplace⟩ := Grammar.exists_of_replaceById hparser.grammar hy
      constructor
      · obtain ⟨u, rest, rfl, rfl⟩ := Grammar.exists_of_replaceLeftmost hreplace
        refine ⟨u, p.head, rest, rfl, ?_⟩
        rw [Grammar.deriveByIds_terminals, Option.map_eq_some_iff] at derive
        obtain ⟨z, hz, hword⟩ := derive
        obtain ⟨v, rfl, rfl⟩ := Grammar.exists_of_terminals_eq hword
        rw [Lookahead.at_append]
        exact covers ids u v p rest plain hp before (Grammar.derives_of_deriveByIds hparser.grammar hz)
      · intro y' hy'
        obtain rfl : y = y' := Option.some.inj (hy.symm.trans hy')
        exact ih ((Grammar.deriveByIds_concat before).trans hy) derive

/-- Only terminals 3 stand behind a nonterminal in a leftmost derivation of a nested word. -/
theorem nested_rest {u : List Terminal} {a : Nonterminal} {rest : List Symbol}
    (h : Grammar.nested.deriveByIds ids [.nonterminal ⟨0⟩] = some (u.map .terminal ++ .nonterminal a :: rest)) :
    ∃ n, rest = (List.replicate n ⟨3⟩).map .terminal := by
  induction ids using List.reverseRecOn generalizing u a rest with
  | nil =>
      obtain ⟨_, _, rfl⟩ := Grammar.terminals_nonterminal_inj (u := []) (Option.some.inj h)
      exact ⟨0, rfl⟩
  | append_singleton ids id ih =>
      rw [Grammar.deriveByIds_append, Option.bind_eq_some_iff] at h
      obtain ⟨x, hx, h⟩ := h
      rw [Grammar.deriveByIds_singleton] at h
      obtain ⟨p, hp, _, hreplace⟩ := Grammar.exists_of_replaceById Grammar.constructed_nested.wellFormed h
      obtain ⟨v, later, rfl, hform⟩ := Grammar.exists_of_replaceLeftmost hreplace
      obtain ⟨n, rfl⟩ := ih hx
      obtain ⟨s, rfl, htail⟩ := Grammar.exists_of_terminals_append hform.symm
      obtain rfl | rfl | rfl := Grammar.mem_productions_nested.mp hp
      · obtain ⟨_, _, rfl⟩ := Grammar.terminals_nonterminal_inj (u := [⟨2⟩]) htail
        exact ⟨n + 1, rfl⟩
      · obtain ⟨_, _, rfl⟩ := Grammar.terminals_nonterminal_inj (u := []) htail
        exact ⟨n, rfl⟩
      · have hmap : (List.replicate n ⟨3⟩).map Symbol.terminal = s.map .terminal ++ .nonterminal a :: rest := htail
        have hmem : Symbol.nonterminal a ∈ (List.replicate n ⟨3⟩).map Symbol.terminal := by
          rw [hmap]
          exact List.mem_append_cons_self
        simp at hmem

theorem nested_lookup (n : Nat) :
    Grammar.nestedTable.lookup ⟨0⟩ (.at 1 (List.replicate n ⟨3⟩) 0) = some ⟨1⟩ ∧
      Grammar.nestedTable.lookup ⟨1⟩ (.at 1 (List.replicate n ⟨3⟩) 0) = some ⟨2⟩ := by
  cases n with
  | zero => exact ⟨rfl, rfl⟩
  | succ n => exact ⟨rfl, rfl⟩

/-- The table of the nested words covers their derivations. -/
theorem covers_nested : Covers (⟨.nested, Grammar.nestedTable, .idle⟩ : Parser Unit Unit) := by
  intro ids u v p rest _ hp hbefore hafter
  obtain ⟨n, rfl⟩ := nested_rest hbefore
  have hspells := Grammar.Spells.of_derives hafter
  obtain rfl | rfl | rfl := Grammar.mem_productions_nested.mp hp
  · cases hspells with
    | terminal _ rest => rfl
  · obtain ⟨q, hq, hhead, hspells⟩ := Grammar.Spells.exists_of_nonterminal hspells
    obtain rfl | rfl | rfl := Grammar.mem_productions_nested.mp hq
    · cases hhead
    · cases hhead
    · obtain rfl := Grammar.Spells.eq_of_terminals hspells
      exact (nested_lookup n).1
  · obtain rfl := Grammar.Spells.eq_of_terminals hspells
    exact (nested_lookup n).2

variable {g : Grammar} {action : SemanticAction τ ε} {k : Nat}

/-- As long as the action does not fail, a word is accepted with given calls of the action if and only if they are a
leftmost derivation, up to end markers, that the table follows. A table that covers all derivations accepts every word
of the language by a leftmost derivation. -/
theorem accepted_iff_follows (constructed : g.Constructed) (made : ofGrammar g action k = .ok parser)
    (total : ∀ root id, ∃ root', action root id = .ok root') (plain : ∀ t ∈ w, t ≠ .epsilon ∧ t ≠ .endMarker) :
    (∀ ids, (∃ n, (parser.after (.ofWord w) n).run.phase = .accepted ∧
        (parser.after (.ofWord w) n).history.applied = ids) ↔
      ∃ i, g.deriveByIds ids [.nonterminal g.start] = some ((w ++ List.replicate i Terminal.endMarker).map .terminal) ∧
        parser.Follows w [.nonterminal g.start] ids) ∧
    (parser.Covers → g.Derives [.nonterminal g.start] (w.map .terminal) →
      ∃ n, (parser.after (.ofWord w) n).run.phase = .accepted ∧
        g.deriveByIds (parser.after (.ofWord w) n).history.applied [.nonterminal g.start] = some (w.map .terminal)) := by
  have hparser := wellFormed_of_ofGrammar constructed made
  obtain ⟨table, _, rfl⟩ := ofGrammar_eq_ok_iff.mp made
  constructor
  · intro ids
    constructor
    · rintro ⟨n, haccepted, rfl⟩
      obtain ⟨i, hderive, hfollows⟩ := follows_of_accepted hparser plain haccepted
      rw [← List.map_replicate, ← List.map_append] at hderive
      exact ⟨i, hderive, hfollows⟩
    · rintro ⟨i, hderive, hfollows⟩
      exact exists_accepted_of_leftmost hparser total plain hderive hfollows
  · intro covers derives
    obtain ⟨ps, hps, hleftmost⟩ := Grammar.exists_deriveLeftmost_of_derives derives
    rw [← Grammar.deriveByIds_map hparser.grammar hps] at hleftmost
    have hfollows := follows_of_covers hparser covers plain (Grammar.deriveByIds_nil _) hleftmost
    have hword : w.map Symbol.terminal = (w ++ List.replicate 0 Terminal.endMarker).map .terminal := by
      rw [List.replicate_zero, List.append_nil]
    rw [hword] at hleftmost
    obtain ⟨n, haccepted, happlied⟩ := exists_accepted_of_leftmost hparser total plain hleftmost hfollows
    refine ⟨n, haccepted, ?_⟩
    rw [happlied, hword]
    exact hleftmost

theorem nested_word_accepted :
    let parser : Parser Unit Unit := ⟨.nested, Grammar.nestedTable, .idle⟩
    ∃ n, (parser.after (.ofWord [⟨2⟩, ⟨3⟩]) n).run.phase = .accepted ∧
      Grammar.nested.deriveByIds (parser.after (.ofWord [⟨2⟩, ⟨3⟩]) n).history.applied [.nonterminal ⟨0⟩] =
        some [.terminal ⟨2⟩, .terminal ⟨3⟩] := by
  have hmade : ofGrammar .nested .idle 1 = .ok (⟨.nested, Grammar.nestedTable, .idle⟩ : Parser Unit Unit) :=
    ofGrammar_eq_ok_iff.mpr ⟨_, Grammar.table_nested, rfl⟩
  have hword : Grammar.nested.deriveByIds [⟨0⟩, ⟨1⟩, ⟨2⟩] [.nonterminal ⟨0⟩] = some [.terminal ⟨2⟩, .terminal ⟨3⟩] :=
    rfl
  exact (accepted_iff_follows Grammar.constructed_nested hmade (fun root _ => ⟨root, rfl⟩) (by decide)).2 covers_nested
    (Grammar.derives_of_deriveByIds Grammar.constructed_nested.wellFormed hword)

/-- The parser for a choice of two terminals below its start. -/
def chosen : Parser Unit Unit where
  grammar :=
    { vocabulary := ⟨4, 2⟩
      start := ⟨0⟩
      arena := #[⟨⟨0⟩, ⟨0⟩, [.nonterminal ⟨1⟩]⟩, ⟨⟨1⟩, ⟨1⟩, [.terminal ⟨2⟩]⟩, ⟨⟨2⟩, ⟨1⟩, [.terminal ⟨3⟩]⟩]
      index := .ofList [((⟨0⟩ : ProductionId), 0), (⟨1⟩, 1), (⟨2⟩, 2)]
      rules := .ofList [((⟨0⟩ : Nonterminal), #[0]), (⟨1⟩, #[1, 2])] }
  table :=
    { k := 1
      entries := .ofList [((⟨⟨0⟩, ⟨[⟨2⟩]⟩⟩ : TableKey), (⟨0⟩ : ProductionId)), (⟨⟨1⟩, ⟨[⟨2⟩]⟩⟩, ⟨1⟩),
        (⟨⟨1⟩, ⟨[⟨3⟩]⟩⟩, ⟨2⟩)] }
  action := .idle

theorem build_chosen :
    Grammar.build ⟨4, 2⟩ ⟨0⟩
      [⟨⟨0⟩, [⟨⟨0⟩, [.nonterminal ⟨1⟩]⟩]⟩, ⟨⟨1⟩, [⟨⟨1⟩, [.terminal ⟨2⟩]⟩, ⟨⟨2⟩, [.terminal ⟨3⟩]⟩]⟩] =
      .ok chosen.grammar := by cbv

/-- The start is expected with the first of the two terminals only. -/
theorem chosen_word_rejected :
    chosen.grammar.Constructed ∧ ofGrammar chosen.grammar .idle 1 = .ok chosen ∧
      chosen.grammar.Derives [.nonterminal ⟨0⟩] ([⟨3⟩].map .terminal) ∧
      ∀ n, (chosen.after (.ofWord [⟨3⟩]) n).run.phase ≠ .accepted := by
  have hconstructed := Grammar.constructed_of_build build_chosen
  have hmade : ofGrammar chosen.grammar .idle 1 = .ok chosen :=
    ofGrammar_eq_ok_iff.mpr ⟨chosen.table, by cbv, rfl⟩
  have hword : chosen.grammar.deriveByIds [⟨0⟩, ⟨2⟩] [.nonterminal ⟨0⟩] = some ([⟨3⟩].map .terminal) := rfl
  refine ⟨hconstructed, hmade, Grammar.derives_of_deriveByIds hconstructed.wellFormed hword, fun n => ?_⟩
  have hstart : (chosen.after (.ofWord [⟨3⟩]) 0).run.phase = .running := rfl
  have hfailed : (chosen.after (.ofWord [⟨3⟩]) 1).run.phase = .failed := rfl
  cases n with
  | zero =>
      rw [hstart]
      exact Phase.noConfusion
  | succ n =>
      rw [after_of_halted (by rw [hfailed]; exact Phase.noConfusion) (Nat.le_add_left 1 n), hfailed]
      exact Phase.noConfusion

end Parser

end PredictiveParsing
