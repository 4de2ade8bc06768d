import PredictiveParsing.Proofs.First.Derivation
import PredictiveParsing.Proofs.Grammar.LeftRecursion
import PredictiveParsing.Proofs.Table.Existence

/-! # Tables and left recursion

The search for FIRST words takes each nonterminal to one of its alternatives only. It comes back to a nonterminal
exactly if a left recursion goes through the chosen alternatives behind its first step; then there is no table for any
bound, and the error names a nonterminal that is left recursive indeed. A left recursion that takes some other
alternative goes unnoticed, and a table can exist in spite of it. -/

namespace PredictiveParsing

namespace First

variable {g : Grammar} {x z : List Symbol} {a : Nonterminal} {p : Production}

/-- Whether a production is the one that FIRST words take its head to: the first alternative that is not the epsilon
production, or the epsilon production if there is no other. -/
def Chosen (g : Grammar) (p : Production) : Prop :=
  (g.alternatives p.head).find? (fun q => !q.isEpsilon) = if p.isEpsilon then none else some p

instance (p : Production) : Decidable (Chosen g p) := by unfold Chosen; infer_instance

theorem replacement?_eq_of_chosen (hg : g.WellFormed) (mem : p ∈ g.productions) (chosen : Chosen g p) :
    replacement? g p.head = .ok (if p.isEpsilon then none else some p) :=
  replacement?_eq_ok_iff.mpr ⟨hg.defines_iff.mpr ⟨p, mem, rfl⟩, chosen⟩

/-- Whatever the chosen productions lead to is read without output. -/
theorem exists_reading_of_leads (hg : g.WellFormed) (h : g.Leads (Chosen g) x a) :
    ∃ z, Reading g x [] (.nonterminal a :: z) := by
  induction h with
  | here a x => exact ⟨x, .stop _⟩
  | @replace p x a mem chosen _ ih =>
      obtain ⟨z, hread⟩ := ih
      have hchoice := replacement?_eq_of_chosen hg mem chosen
      cases hkind : p.isEpsilon with
      | true =>
          rw [hkind, if_pos rfl] at hchoice
          rw [Production.body_of_isEpsilon hkind] at hread
          exact ⟨z, .drop hchoice hread⟩
      | false =>
          rw [hkind, if_neg Bool.false_ne_true] at hchoice
          rw [Production.body_of_plain hkind] at hread
          exact ⟨z, .replace hchoice hread⟩

theorem leads_of_reading (hg : g.WellFormed) (plain : ∀ symbol ∈ x, symbol ≠ .terminal .epsilon)
    (h : Reading g x [] (.nonterminal a :: z)) : g.Leads (Chosen g) x a := by
  generalize hv : ([] : List Terminal) = v at h
  generalize hz : Symbol.nonterminal a :: z = y at h
  induction h with
  | stop => exact hz ▸ .here a z
  | terminal => cases hv
  | epsilon => exact absurd rfl (List.forall_mem_cons.mp plain).1
  | drop choice _ ih =>
      obtain ⟨p, mem, rfl, hkind⟩ := exists_epsilon_of_replacement? hg choice
      have hchosen : Chosen g p := by
        rw [Chosen, hkind, if_pos rfl]
        exact (replacement?_eq_ok_iff.mp choice).2
      refine .replace mem hchosen ?_
      rw [Production.body_of_isEpsilon hkind]
      exact ih (List.forall_mem_cons.mp plain).2 hv hz
  | @replace a p x z v choice _ ih =>
      have hrest := ih (ne_epsilon_of_replacement? hg choice plain) hv hz
      obtain ⟨mem, rfl, hkind⟩ := mem_of_replacement? hg choice
      have hchosen : Chosen g p := by
        rw [Chosen, hkind, if_neg Bool.false_ne_true]
        exact (replacement?_eq_ok_iff.mp choice).2
      refine .replace mem hchosen ?_
      rwa [Production.body_of_plain hkind]

theorem loops_iff (hg : g.WellFormed) (mem : p ∈ g.productions) :
    Loops g p ↔ g.Leads (Chosen g) p.body p.head := by
  constructor
  · rintro ⟨hkind, z, hread⟩
    rw [← Production.body_of_plain hkind] at hread
    exact leads_of_reading hg (fun _ => (hg.wellFormed p mem).ne_epsilon) hread
  · intro h
    cases hkind : p.isEpsilon with
    | true =>
        rw [Production.body_of_isEpsilon hkind] at h
        cases h
    | false =>
        rw [Production.body_of_plain hkind] at h
        exact ⟨hkind, exists_reading_of_leads hg h⟩

/-- The heads of looping productions are those with a left recursion through the chosen alternatives. -/
theorem leftRecursiveBy_chosen_iff (hg : g.WellFormed) :
    g.LeftRecursiveBy (Chosen g) a ↔ ∃ p ∈ g.productions, p.head = a ∧ Loops g p := by
  rw [Grammar.leftRecursiveBy_iff]
  constructor
  · rintro ⟨p, mem, rfl, h⟩
    exact ⟨p, mem, rfl, (loops_iff hg mem).mpr h⟩
  · rintro ⟨p, mem, rfl, h⟩
    exact ⟨p, mem, rfl, (loops_iff hg mem).mp h⟩

end First

namespace Grammar

variable {g : Grammar} {k : Nat} {a : Nonterminal}

/-- The FIRST sets of a closed grammar only fail for a production that loops. -/
theorem exists_loop_of_firstSets_error (hg : g.WellFormed) (closed : g.Closed) {e : GrammarError}
    (h : g.firstSets k = .error e) : ∃ p ∈ g.productions, First.Loops g p ∧ e = .leftRecursion p.head := by
  rw [firstSets, bind_eq_error_iff] at h
  rcases h with hwords | ⟨_, _, hdone⟩
  · obtain ⟨p, mem, herror⟩ := exists_error_of_mapM hwords
    rcases bind_eq_error_iff.mp herror with hword | ⟨_, _, hdone⟩
    · exact First.exists_loop_of_ofProduction_error hg closed mem hword
    · cases hdone
  · cases hdone

theorem check_ne_leftRecursion : g.check ≠ .error (.leftRecursion a) := by
  intro h
  unfold check at h
  split at h <;> cases h

theorem admits_ne_leftRecursion : g.admits k ≠ .error (.leftRecursion a) := by
  intro h
  unfold admits at h
  split at h
  · cases h
  · rcases bind_eq_error_iff.mp h with hcheck | ⟨_, _, hdone⟩
    · exact check_ne_leftRecursion hcheck
    · cases hdone

/-- The analyses of a closed grammar report a left recursion if the FIRST sets do. -/
theorem prediction_eq_leftRecursion_iff :
    g.prediction k = .error (.leftRecursion a) ↔
      0 < k ∧ g.Closed ∧ g.firstSets k = .error (.leftRecursion a) := by
  rw [prediction, bind_eq_error_iff]
  constructor
  · rintro (h | ⟨_, hadmits, h⟩)
    · exact absurd h admits_ne_leftRecursion
    · have hpos := pos_of_admits hadmits
      rcases bind_eq_error_iff.mp h with hfirsts | ⟨_, _, hdone⟩
      · exact ⟨hpos, (admits_eq_ok_iff hpos).mp hadmits, hfirsts⟩
      · cases hdone
  · rintro ⟨pos, closed, h⟩
    exact Or.inr ⟨(), (admits_eq_ok_iff pos).mpr closed, bind_eq_error_iff.mpr (Or.inl h)⟩

/-- A table is kept from being built by what keeps the analyses from being made, or by a conflict. -/
theorem table_eq_grammar_error_iff (hg : g.WellFormed) {e : GrammarError} :
    g.table k = .error (.grammar e) ↔ g.prediction k = .error e := by
  rw [table, bind_eq_error_iff]
  constructor
  · rintro (h | ⟨found, hfound, h⟩)
    · obtain ⟨e', h, heq⟩ := mapError_eq_error_iff.mp h
      rwa [← TableError.grammar.inj heq]
    · have hdescribes := Prediction.describes_of_prediction (mapError_eq_ok_iff.mp hfound)
      obtain ⟨_, _, _, _, heq⟩ :=
        Table.conflict_of_fill_error (fun p mem => Prediction.isReached_of_mem hg hdescribes mem) h
      cases heq
  · intro h
    exact Or.inl (mapError_eq_error_iff.mpr ⟨e, h, rfl⟩)

/-- The left recursion that is reported goes through the chosen alternatives. -/
theorem leftRecursiveBy_of_table_error (hg : g.WellFormed) (h : g.table k = .error (.grammar (.leftRecursion a))) :
    g.LeftRecursiveBy (First.Chosen g) a := by
  obtain ⟨_, hclosed, hfirsts⟩ := prediction_eq_leftRecursion_iff.mp ((table_eq_grammar_error_iff hg).mp h)
  obtain ⟨p, mem, loops, heq⟩ := exists_loop_of_firstSets_error hg hclosed hfirsts
  exact (First.leftRecursiveBy_chosen_iff hg).mpr ⟨p, mem, (GrammarError.leftRecursion.inj heq).symm, loops⟩

theorem leftRecursive_of_loops (hg : g.WellFormed) {p : Production} (mem : p ∈ g.productions) (loops : First.Loops g p) :
    g.LeftRecursive p.head :=
  ((First.leftRecursiveBy_chosen_iff hg).mpr ⟨p, mem, rfl, loops⟩).leftRecursive

/-- In a closed grammar a left recursion through the chosen alternatives is reported. -/
theorem exists_table_error_of_leftRecursiveBy (hg : g.WellFormed) (closed : g.Closed) (pos : 0 < k)
    (h : g.LeftRecursiveBy (First.Chosen g) a) : ∃ b, g.table k = .error (.grammar (.leftRecursion b)) := by
  obtain ⟨p, mem, _, loops⟩ := (First.leftRecursiveBy_chosen_iff hg).mp h
  cases hfirsts : g.firstSets k with
  | ok firsts => exact absurd loops ((exists_firstSets_iff hg closed pos).mp ⟨firsts, hfirsts⟩ p mem)
  | error e =>
      obtain ⟨q, _, _, rfl⟩ := exists_loop_of_firstSets_error hg closed hfirsts
      exact ⟨q.head, (table_eq_grammar_error_iff hg).mpr
        (prediction_eq_leftRecursion_iff.mpr ⟨pos, closed, hfirsts⟩)⟩

theorem table_ne_ok_of_leftRecursiveBy (hg : g.WellFormed) (h : g.LeftRecursiveBy (First.Chosen g) a) (table : Table) :
    g.table k ≠ .ok table := by
  intro htable
  have hpos := pos_of_table htable
  obtain ⟨found, hfound, _⟩ := table_eq_ok_iff.mp htable
  have hclosed := ((exists_prediction_iff hg hpos).mp ⟨found, hfound⟩).1
  obtain ⟨b, herror⟩ := exists_table_error_of_leftRecursiveBy hg hclosed hpos h
  rw [htable] at herror
  cases herror

/-- A left recursion that goes through the chosen alternatives behind its first step leaves no table for any bound. In
a grammar that passes the check it is what is reported, and what is reported is such a left recursion. So a left
recursive nonterminal leaves no table as long as there is nothing to choose for the other nonterminals. -/
theorem left_recursion_is_found_in_chosen (constructed : g.Constructed) (k : Nat) :
    (∀ a, g.LeftRecursiveBy (First.Chosen g) a → ∀ table, g.table k ≠ .ok table) ∧
    ((∃ unreachable, g.check = .ok unreachable) → 0 < k →
      ((∃ a, g.LeftRecursiveBy (First.Chosen g) a) ↔ ∃ a, g.table k = .error (.grammar (.leftRecursion a)))) ∧
    (∀ a, g.table k = .error (.grammar (.leftRecursion a)) →
      g.LeftRecursiveBy (First.Chosen g) a ∧ g.LeftRecursive a) ∧
    (∀ a, g.LeftRecursive a → (∀ p ∈ g.productions, p.head ≠ a → First.Chosen g p) →
      ∀ table, g.table k ≠ .ok table) := by
  have hg := constructed.wellFormed
  refine ⟨fun a h => table_ne_ok_of_leftRecursiveBy hg h, fun checked pos => ⟨?_, ?_⟩, fun a h => ?_, fun a h only => ?_⟩
  · rintro ⟨a, h⟩
    exact exists_table_error_of_leftRecursiveBy hg (closed_iff_check.mpr checked) pos h
  · rintro ⟨a, h⟩
    exact ⟨a, leftRecursiveBy_of_table_error hg h⟩
  · have hby := leftRecursiveBy_of_table_error hg h
    exact ⟨hby, hby.leftRecursive⟩
  · exact table_ne_ok_of_leftRecursiveBy hg (h.leftRecursiveBy only)

/-- The grammar of a left recursion that takes the second alternative of its first nonterminal. -/
def winding : Grammar where
  vocabulary := ⟨5, 2⟩
  start := ⟨0⟩
  arena := #[⟨⟨0⟩, ⟨0⟩, [.terminal ⟨2⟩]⟩, ⟨⟨1⟩, ⟨0⟩, [.nonterminal ⟨1⟩, .terminal ⟨3⟩]⟩,
    ⟨⟨2⟩, ⟨1⟩, [.nonterminal ⟨0⟩, .terminal ⟨4⟩]⟩]
  index := .ofList [((⟨0⟩ : ProductionId), 0), (⟨1⟩, 1), (⟨2⟩, 2)]
  rules := .ofList [((⟨0⟩ : Nonterminal), #[0, 1]), (⟨1⟩, #[2])]

theorem build_winding :
    build ⟨5, 2⟩ ⟨0⟩
      [⟨⟨0⟩, [⟨⟨0⟩, [.terminal ⟨2⟩]⟩, ⟨⟨1⟩, [.nonterminal ⟨1⟩, .terminal ⟨3⟩]⟩]⟩,
        ⟨⟨1⟩, [⟨⟨2⟩, [.nonterminal ⟨0⟩, .terminal ⟨4⟩]⟩]⟩] = .ok winding := by cbv

theorem left_recursion_of_winding_is_found :
    winding.LeftRecursiveBy (First.Chosen winding) ⟨0⟩ ∧ winding.LeftRecursive ⟨0⟩ ∧
      (∀ k table, winding.table k ≠ .ok table) ∧ ∃ a, winding.table 1 = .error (.grammar (.leftRecursion a)) := by
  have hfound := left_recursion_is_found_in_chosen (constructed_of_build build_winding)
  have herror : winding.table 1 = .error (.grammar (.leftRecursion ⟨0⟩)) := by cbv
  obtain ⟨hby, hrecursive⟩ := (hfound 1).2.2.1 ⟨0⟩ herror
  refine ⟨hby, hrecursive, fun k => (hfound k).2.2.2 ⟨0⟩ hrecursive (by decide), ?_⟩
  exact ((hfound 1).2.1 ⟨[], by cbv⟩ (by decide)).mp ⟨⟨0⟩, hby⟩

/-- A left recursion is never reported in vain: whether the search for the word of a production, the FIRST sets or the
table report it in a grammar that passes the check, the nonterminal can be rewritten to a string that starts with it. -/
theorem leftRecursive_of_reported (constructed : g.Constructed) (checked : ∃ unreachable, g.check = .ok unreachable)
    (k : Nat) :
    (∀ p ∈ g.productions, ∀ a, First.ofProduction g k p = .error (.leftRecursion a) → g.LeftRecursive a) ∧
    (∀ a, g.firstSets k = .error (.leftRecursion a) → g.LeftRecursive a) ∧
    ∀ a, g.table k = .error (.grammar (.leftRecursion a)) → g.LeftRecursive a := by
  have hg := constructed.wellFormed
  have hclosed := closed_iff_check.mpr checked
  refine ⟨fun p mem a h => ?_, fun a h => ?_, fun a h => (leftRecursiveBy_of_table_error hg h).leftRecursive⟩
  · obtain ⟨q, hq, loops, heq⟩ := First.exists_loop_of_ofProduction_error hg hclosed mem h
    rw [GrammarError.leftRecursion.inj heq]
    exact leftRecursive_of_loops hg hq loops
  · obtain ⟨q, hq, loops, heq⟩ := exists_loop_of_firstSets_error hg hclosed h
    rw [GrammarError.leftRecursion.inj heq]
    exact leftRecursive_of_loops hg hq loops

theorem leftRecursive_of_reported_winding :
    winding.firstSets 1 = .error (.leftRecursion ⟨0⟩) ∧ winding.table 1 = .error (.grammar (.leftRecursion ⟨0⟩)) ∧
      winding.LeftRecursive ⟨0⟩ := by
  have hfirsts : winding.firstSets 1 = .error (.leftRecursion ⟨0⟩) := by cbv
  have hreported := leftRecursive_of_reported (constructed_of_build build_winding) ⟨[], by cbv⟩ 1
  exact ⟨hfirsts, by cbv, hreported.2.1 ⟨0⟩ hfirsts⟩

/-- The grammar of any number of terminals that can be left out. -/
def optionals : Grammar where
  vocabulary := ⟨3, 2⟩
  start := ⟨0⟩
  arena := #[⟨⟨0⟩, ⟨0⟩, [.nonterminal ⟨1⟩, .nonterminal ⟨0⟩]⟩, ⟨⟨1⟩, ⟨0⟩, [.terminal .epsilon]⟩,
    ⟨⟨2⟩, ⟨1⟩, [.terminal ⟨2⟩]⟩, ⟨⟨3⟩, ⟨1⟩, [.terminal .epsilon]⟩]
  index := .ofList [((⟨0⟩ : ProductionId), 0), (⟨1⟩, 1), (⟨2⟩, 2), (⟨3⟩, 3)]
  rules := .ofList [((⟨0⟩ : Nonterminal), #[0, 1]), (⟨1⟩, #[2, 3])]

theorem build_optionals :
    build ⟨3, 2⟩ ⟨0⟩
      [⟨⟨0⟩, [⟨⟨0⟩, [.nonterminal ⟨1⟩, .nonterminal ⟨0⟩]⟩, ⟨⟨1⟩, []⟩]⟩,
        ⟨⟨1⟩, [⟨⟨2⟩, [.terminal ⟨2⟩]⟩, ⟨⟨3⟩, []⟩]⟩] = .ok optionals := by cbv

/-- The table of this grammar with a lookahead of one terminal. -/
def optionalsTable : Table where
  k := 1
  entries := .ofList [((⟨⟨0⟩, ⟨[⟨2⟩]⟩⟩ : TableKey), (⟨0⟩ : ProductionId)), (⟨⟨0⟩, ⟨[⟨1⟩]⟩⟩, ⟨0⟩),
    (⟨⟨1⟩, ⟨[⟨2⟩]⟩⟩, ⟨2⟩), (⟨⟨1⟩, ⟨[⟨1⟩]⟩⟩, ⟨3⟩)]

theorem table_optionals : optionals.table 1 = .ok optionalsTable := by cbv

/-- A left recursion behind a nonterminal that has vanished does not keep a table from being built. -/
theorem optionals_has_table_but_is_left_recursive :
    optionals.Constructed ∧ (∃ unreachable, optionals.check = .ok unreachable) ∧
      optionals.defines ⟨0⟩ = true ∧ optionals.LeftRecursive ⟨0⟩ ∧ optionals.table 1 = .ok optionalsTable := by
  refine ⟨constructed_of_build build_optionals, ⟨[], by cbv⟩, by decide, ?_, table_optionals⟩
  have hrecursion : optionals.LeftRecursiveBy (fun _ => True) ⟨0⟩ :=
    ⟨⟨⟨0⟩, ⟨0⟩, [.nonterminal ⟨1⟩, .nonterminal ⟨0⟩]⟩, [⟨⟨3⟩, ⟨1⟩, [.terminal .epsilon]⟩], [], by decide, by simp, by decide⟩
  exact hrecursion.leftRecursive

end Grammar

end PredictiveParsing
