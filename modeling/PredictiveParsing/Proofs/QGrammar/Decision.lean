import PredictiveParsing.Proofs.Parser.Termination
import PredictiveParsing.Proofs.QGrammar.Analysis
import PredictiveParsing.Proofs.Table.Existence

/-! # The language of a q-grammar is decided

With a lookahead of one terminal the parser of a q-grammar decides its language. A run cannot go on for ever, because
what replaces a nonterminal is empty or begins with a terminal, so that nothing comes back to itself. The table covers
all derivations, so every word that can be derived is accepted, along any of its leftmost derivations, of which there
is therefore only one. Any other word ends at a token that is not expected or is left over. -/

namespace PredictiveParsing

theorem TokenSource.isFinite_ofWord (w : List Terminal) : (TokenSource.ofWord w).IsFinite := by
  refine ⟨w.length + 1, ?_⟩
  rw [stopped, stops, ofWord_eq, List.getElem?_eq_none (Nat.le_refl _), Option.all_none, Bool.or_true]

namespace Grammar

variable {g : Grammar} {x y : List Symbol}

/-- Without end markers in its productions a grammar derives none. -/
theorem not_mem_of_derives (unended : ∀ p ∈ g.productions, .terminal .endMarker ∉ p.symbols) (h : g.Derives x y)
    (hx : .terminal .endMarker ∉ x) : .terminal .endMarker ∉ y := by
  induction h with
  | refl => exact hx
  | head first _ ih =>
      refine ih ?_
      cases first with
      | @replace p mem before after =>
          have hbody : Symbol.terminal .endMarker ∉ p.body := by
            unfold Production.body
            split
            · exact List.not_mem_nil
            · exact unended p mem
          simp only [List.mem_append, List.mem_cons, not_or] at hx ⊢
          exact ⟨hx.1, hbody, hx.2.2⟩

/-- What replaces a nonterminal does not come to a nonterminal without reading a token. -/
theorem IsQGrammar.body_ne {follows : LookaheadTable} (q : g.IsQGrammar follows) {p : Production}
    (mem : p ∈ g.productions) (j : Nat) (a : Nonterminal) (y : List Symbol) :
    p.body ≠ List.replicate j (.terminal .endMarker) ++ .nonterminal a :: y := by
  intro h
  cases hkind : p.isEpsilon with
  | true =>
      rw [Production.body, hkind, if_pos rfl] at h
      simp at h
  | false =>
      obtain ⟨t, rest, _, hbody, _, ht⟩ := q.exists_first mem hkind
      rw [hbody] at h
      cases j with
      | zero => cases h
      | succ j =>
          rw [List.replicate_succ, List.cons_append] at h
          cases h
          exact ht rfl

end Grammar

namespace Parser

variable {τ ε : Type} {parser : Parser τ ε} {w : List Terminal} {found : Prediction} {base : Run τ}

/-- Without fail an action and tokens that are none of the markers leave two ways to go wrong. -/
theorem error_of_step (pos : 0 < parser.k) (total : ∀ root id, ∃ root', parser.action root id = .ok root')
    (plain : ∀ t ∈ w, t ≠ .epsilon ∧ t ≠ .endMarker) {n : Nat} {e : ParseError ε}
    (running : (parser.after (.ofWord w) n).run.phase = .running)
    (h : (parser.step (.ofWord w) (parser.after (.ofWord w) n).run).2 = .error e) :
    (∃ expected lookahead, e = .unexpectedToken expected lookahead) ∨ ∃ lookahead, e = .trailingInput lookahead := by
  have hclean : (parser.after (.ofWord w) n).run.emptyToken = false := by
    rw [(feeds_after pos running).reads.informed.emptyToken]
    exact TokenSource.spoiled_ofWord plain _
  have heffect := effect_step parser (.ofWord w) running
  generalize parser.step (.ofWord w) (parser.after (.ofWord w) n).run = outcome at *
  cases heffect with
  | spoiled spoiled =>
      rw [hclean] at spoiled
      cases spoiled
  | exhausted | accept | pass | consume | expand => cases h
  | trailing =>
      cases h
      exact Or.inr ⟨_, rfl⟩
  | mismatch | unpredicted =>
      cases h
      exact Or.inl ⟨_, _, rfl⟩
  | @rejected a rest p e' top predicted refused =>
      obtain ⟨root', hroot'⟩ := total (parser.after (.ofWord w) n).run.root p.id
      rw [hroot'] at refused
      cases refused

/-- A nonterminal alone is replaced by what is predicted for it. -/
theorem Expands.exists_body (hparser : parser.WellFormed) {a : Nonterminal} {x : List Symbol}
    (h : parser.Expands base [.nonterminal a] x) : ∃ p ∈ parser.grammar.productions, x = p.body := by
  generalize hz : [Symbol.nonterminal a] = z at h
  cases h with
  | @expand j b p rest passed predicted =>
      cases j with
      | zero =>
          obtain ⟨_, rfl⟩ := List.cons.inj hz
          exact ⟨p, (mem_of_predict hparser predicted).1, List.append_nil _⟩
      | succ j => cases hz

section

variable (hparser : parser.WellFormed) (q : parser.grammar.IsQGrammar found.follows)
include hparser q

/-- No nonterminal of a q-grammar comes back to itself. -/
theorem not_recursAt {source : TokenSource} {n j : Nat} {a : Nonterminal} : ¬parser.RecursAt source n a j := by
  intro h
  obtain ⟨_, y, hchain⟩ := h.recurs
  obtain ⟨x, hfirst, hrest⟩ := Relation.TransGen.head'_iff.mp hchain
  obtain ⟨p, mem, rfl⟩ := hfirst.exists_body hparser
  rcases hrest.cases_head with hend | ⟨z, hnext, _⟩
  · exact q.body_ne mem j a y hend
  · generalize hx : p.body = x at hnext
    cases hnext with
    | expand => exact q.body_ne mem _ _ _ hx

theorem exists_halted {source : TokenSource} (finite : source.IsFinite) :
    ∃ n, (parser.after source n).run.phase ≠ .running := by
  by_contra! never
  obtain ⟨n, a, j, hrecurs⟩ := exists_recurs_of_never never hparser finite
  exact not_recursAt hparser q hrecurs

/-- What an accepted run of a word has applied is a leftmost derivation of the word itself. -/
theorem derive_of_accepted (plain : ∀ t ∈ w, t ≠ .epsilon ∧ t ≠ .endMarker) {n : Nat}
    (accepted : (parser.after (.ofWord w) n).run.phase = .accepted) :
    parser.grammar.deriveByIds (parser.after (.ofWord w) n).history.applied [.nonterminal parser.grammar.start] =
      some (w.map .terminal) := by
  obtain ⟨i, hderive, _, hyields⟩ := accepted_after hparser accepted
  rw [TokenSource.eq_of_yields_ofWord plain hyields] at hderive
  have hunended := Grammar.not_mem_of_derives q.unended (Grammar.derives_of_deriveByIds hparser.grammar hderive)
    (by simp)
  cases i with
  | zero => rwa [List.replicate_zero, List.append_nil] at hderive
  | succ i => simp at hunended

end

variable {g : Grammar} {action : SemanticAction τ ε}

/-- The table of a q-grammar covers all derivations. -/
theorem covers_of_isQGrammar (constructed : g.Constructed) (analysed : g.prediction 1 = .ok found)
    (q : g.IsQGrammar found.follows) (made : ofGrammar g action 1 = .ok parser) : parser.Covers := by
  have hg := constructed.wellFormed
  have hclosed := ((Grammar.exists_prediction_iff hg Nat.one_pos).mp ⟨found, analysed⟩).1
  obtain ⟨table, htable, rfl⟩ := ofGrammar_eq_ok_iff.mp made
  intro ids u v p rest plain mem before behind
  obtain ⟨t, ht, hentry⟩ := q.get?_of_spells hg analysed htable hclosed mem
    (Grammar.derives_of_deriveByIds hg before) (.of_derives behind) (List.forall_mem_append.mp plain).2
  rw [k, Grammar.k_of_table htable, ht, Table.lookup_singleton]
  exact hentry

/-- A parser whose table covers all derivations accepts a word along each of its leftmost derivations. -/
theorem exists_accepted_of_covers (hparser : parser.WellFormed) (covers : parser.Covers)
    (total : ∀ root id, ∃ root', parser.action root id = .ok root')
    (plain : ∀ t ∈ w, t ≠ .epsilon ∧ t ≠ .endMarker) {ids : List ProductionId}
    (derive : parser.grammar.deriveByIds ids [.nonterminal parser.grammar.start] = some (w.map .terminal)) :
    ∃ n, (parser.after (.ofWord w) n).run.phase = .accepted ∧ (parser.after (.ofWord w) n).history.applied = ids := by
  have hfollows := follows_of_covers hparser covers plain (Grammar.deriveByIds_nil _) derive
  refine exists_accepted_of_leftmost hparser total plain (i := 0) ?_ hfollows
  rw [List.replicate_zero, List.append_nil]
  exact derive

/-- With a lookahead of one terminal the parser of a q-grammar ends on every word. It accepts exactly the words of
the language, each by its only leftmost derivation, and fails at an unexpected or a trailing token on all others. -/
theorem decides_language (constructed : g.Constructed) (analysed : g.prediction 1 = .ok found)
    (q : g.IsQGrammar found.follows) (made : ofGrammar g action 1 = .ok parser)
    (total : ∀ root id, ∃ root', action root id = .ok root') (plain : ∀ t ∈ w, t ≠ .epsilon ∧ t ≠ .endMarker) :
    ∃ limit last outcome, parser.parseWithin (.ofWord w) limit = some (last, outcome) ∧
      ((∃ root, outcome = .ok root) ↔ g.Derives [.nonterminal g.start] (w.map .terminal)) ∧
      (∀ root, outcome = .ok root → ∀ ids,
        g.deriveByIds ids [.nonterminal g.start] = some (w.map .terminal) ↔
          ids = (parser.after (.ofWord w) limit).history.applied) ∧
      ∀ e, outcome = .error e →
        (∃ expected lookahead, e = .unexpectedToken expected lookahead) ∨ ∃ lookahead, e = .trailingInput lookahead := by
  have hparser := wellFormed_of_ofGrammar constructed made
  have hcovers := covers_of_isQGrammar constructed analysed q made
  obtain ⟨table, htable, rfl⟩ := ofGrammar_eq_ok_iff.mp made
  obtain ⟨limit, hhalted⟩ := exists_halted hparser q (TokenSource.isFinite_ofWord w)
  have haccepts : ∀ {ids : List ProductionId}, g.deriveByIds ids [.nonterminal g.start] = some (w.map .terminal) →
      (after ⟨g, table, action⟩ (.ofWord w) limit).run.phase = .accepted ∧
        (after ⟨g, table, action⟩ (.ofWord w) limit).history.applied = ids := by
    intro ids derive
    obtain ⟨n, haccepted, happlied⟩ := exists_accepted_of_covers hparser hcovers total plain derive
    have hsame := after_eq_of_halted hhalted (by rw [haccepted]; exact Phase.noConfusion)
    rw [hsame]
    exact ⟨haccepted, happlied⟩
  obtain ⟨⟨last, outcome⟩, hresult⟩ := Option.ne_none_iff_exists'.mp (mt parseWithin_eq_none_iff.mp hhalted)
  have hderive : ∀ {root : Option τ}, outcome = .ok root →
      g.deriveByIds (after ⟨g, table, action⟩ (.ofWord w) limit).history.applied [.nonterminal g.start] =
        some (w.map .terminal) := by
    rintro root rfl
    obtain ⟨hlast, haccepted, _⟩ := accepted_of_parseWithin hresult
    exact derive_of_accepted hparser q plain (hlast ▸ haccepted)
  refine ⟨limit, last, outcome, hresult, ⟨?_, ?_⟩, ?_, ?_⟩
  · rintro ⟨root, houtcome⟩
    exact Grammar.derives_of_deriveByIds hparser.grammar (hderive houtcome)
  · intro derives
    obtain ⟨ps, hps, hleftmost⟩ := Grammar.exists_deriveLeftmost_of_derives derives
    rw [← Grammar.deriveByIds_map hparser.grammar hps] at hleftmost
    have haccepted := parseWithin_of_accepted (haccepts hleftmost).1
    rw [hresult] at haccepted
    cases haccepted
    exact ⟨_, rfl⟩
  · intro root houtcome ids
    constructor
    · intro derive
      exact (haccepts derive).2.symm
    · rintro rfl
      exact hderive houtcome
  · rintro e rfl
    obtain ⟨n, hrunning, herror⟩ := exists_step_of_parseWithin_error hresult
    exact error_of_step hparser.pos total plain hrunning herror

/-- The parser for words of terminals 2 followed by as many terminals 3. -/
def paired : Parser Unit Unit where
  grammar :=
    { vocabulary := ⟨4, 1⟩
      start := ⟨0⟩
      arena := #[⟨⟨0⟩, ⟨0⟩, [.terminal ⟨2⟩, .nonterminal ⟨0⟩, .terminal ⟨3⟩]⟩, ⟨⟨1⟩, ⟨0⟩, [.terminal .epsilon]⟩]
      index := .ofList [((⟨0⟩ : ProductionId), 0), (⟨1⟩, 1)]
      rules := .ofList [((⟨0⟩ : Nonterminal), #[0, 1])] }
  table :=
    { k := 1
      entries := .ofList [((⟨⟨0⟩, ⟨[⟨2⟩]⟩⟩ : TableKey), (⟨0⟩ : ProductionId)), (⟨⟨0⟩, ⟨[⟨1⟩]⟩⟩, ⟨1⟩),
        (⟨⟨0⟩, ⟨[⟨3⟩]⟩⟩, ⟨1⟩)] }
  action := .idle

theorem build_paired :
    Grammar.build ⟨4, 1⟩ ⟨0⟩
      [⟨⟨0⟩, [⟨⟨0⟩, [.terminal ⟨2⟩, .nonterminal ⟨0⟩, .terminal ⟨3⟩]⟩, ⟨⟨1⟩, []⟩]⟩] = .ok paired.grammar := by cbv

theorem made_paired : ofGrammar paired.grammar .idle 1 = .ok paired :=
  ofGrammar_eq_ok_iff.mpr ⟨paired.table, by cbv, rfl⟩

/-- What the analyses of this grammar find. -/
def pairedPrediction : Prediction where
  k := 1
  nullable := .ofList [(⟨0⟩ : Nonterminal)]
  firsts :=
    { table := (MultiMap.empty.insert ⟨0⟩ ⟨[⟨2⟩]⟩).insert ⟨0⟩ ⟨[]⟩
      words := .ofList [((⟨0⟩ : ProductionId), (⟨[⟨2⟩]⟩ : Lookahead)), (⟨1⟩, ⟨[]⟩)] }
  follows := (MultiMap.empty.insert ⟨0⟩ ⟨[⟨1⟩]⟩).insert ⟨0⟩ ⟨[⟨3⟩]⟩

theorem prediction_paired : paired.grammar.prediction 1 = .ok pairedPrediction := by cbv

theorem isQGrammar_paired : paired.grammar.IsQGrammar pairedPrediction.follows := by
  have hproductions : ∀ p ∈ paired.grammar.productions,
      p = ⟨⟨0⟩, ⟨0⟩, [.terminal ⟨2⟩, .nonterminal ⟨0⟩, .terminal ⟨3⟩]⟩ ∨ p = ⟨⟨1⟩, ⟨0⟩, [.terminal .epsilon]⟩ := by decide
  refine ⟨by decide, fun p mem plain => ?_, fun p hp epsilon r hr plain _ t rest hsymbols => ?_⟩
  · obtain rfl | rfl := hproductions p mem
    · exact ⟨_, _, rfl⟩
    · cases plain
  · obtain rfl | rfl := hproductions p hp
    · cases epsilon
    obtain rfl | rfl := hproductions r hr
    · cases hsymbols
      decide
    · cases plain

theorem paired_decides_word :
    ∃ limit last root, paired.parseWithin (.ofWord [⟨2⟩, ⟨3⟩]) limit = some (last, .ok root) ∧
      ∀ ids, paired.grammar.deriveByIds ids [.nonterminal ⟨0⟩] = some [.terminal ⟨2⟩, .terminal ⟨3⟩] ↔
        ids = (paired.after (.ofWord [⟨2⟩, ⟨3⟩]) limit).history.applied := by
  have hconstructed := Grammar.constructed_of_build build_paired
  have hderive : paired.grammar.deriveByIds [⟨0⟩, ⟨1⟩] [.nonterminal ⟨0⟩] = some ([⟨2⟩, ⟨3⟩].map .terminal) := rfl
  obtain ⟨limit, last, outcome, hresult, haccepts, hunique, _⟩ :=
    decides_language (w := [⟨2⟩, ⟨3⟩]) hconstructed prediction_paired isQGrammar_paired made_paired
      (fun root _ => ⟨root, rfl⟩) (by decide)
  obtain ⟨root, rfl⟩ := haccepts.mpr (Grammar.derives_of_deriveByIds hconstructed.wellFormed hderive)
  exact ⟨limit, last, root, hresult, hunique root rfl⟩

end Parser

end PredictiveParsing
