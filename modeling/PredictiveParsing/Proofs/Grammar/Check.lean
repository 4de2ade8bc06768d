import PredictiveParsing.Proofs.Grammar.Reachability
import PredictiveParsing.Proofs.Reachability.Loop

/-! # What the check of a grammar finds

The check goes through the references of a grammar, the start symbol first and then the right-hand sides in order, and
fails with the first nonterminal that has no productions. If there is none, a search from the start symbol ends, however
the productions refer back to each other, and the check reports the heads that it has not found: these are the ones that
occur in no string that is derived from the start symbol. -/

namespace PredictiveParsing

open Std

namespace Grammar

variable {g : Grammar} {a : Nonterminal}

/-- The nonterminals on the right of the alternatives of a nonterminal, each once and in ascending order. -/
def neighbours (g : Grammar) (a : Nonterminal) : List Nonterminal :=
  (ExtTreeSet.ofList ((g.alternatives a).flatMap Production.nonterminals)).toList

theorem mem_neighbours_iff {b : Nonterminal} : b ∈ g.neighbours a ↔ b ∈ Reachability.successors g.edges a := by
  rw [neighbours, ExtTreeSet.mem_toList, ExtTreeSet.mem_ofList, List.contains_iff_mem, successors_edges]

/-- The search for reachable nonterminals ends as a loop. -/
theorem exists_search : ∃ limit, Reachability.Search.run g.neighbours limit (.start [g.start]) = some g.reachable :=
  ⟨_, Reachability.Search.run_start (fun _ _ => mem_neighbours_iff) (Nat.le_refl _)⟩

theorem WellFormed.defines_eq_false_iff (hg : g.WellFormed) :
    g.defines a = false ↔ ∀ p ∈ g.productions, p.head ≠ a := by
  rw [Bool.eq_false_iff, ne_eq, hg.defines_iff, not_exists]
  exact forall_congr' fun p => not_and

theorem check_eq_error_iff {e : GrammarError} : g.check = .error e ↔
    ∃ before a after, g.referenced = before ++ a :: after ∧ e = .undefinedNonterminal a ∧ g.defines a = false ∧
      ∀ b ∈ before, g.defines b = true := by
  have hfirst : ∀ a, g.referenced.find? (fun a => !g.defines a) = some a ↔
      ∃ before after, g.referenced = before ++ a :: after ∧ g.defines a = false ∧ ∀ b ∈ before, g.defines b = true := by
    intro a
    rw [List.find?_eq_some_iff_append]
    simp only [Bool.not_eq_eq_eq_not, Bool.not_true, Bool.not_not]
    exact ⟨fun ⟨hundefined, before, after, hlist, hbefore⟩ => ⟨before, after, hlist, hundefined, hbefore⟩,
      fun ⟨before, after, hlist, hundefined, hbefore⟩ => ⟨hundefined, before, after, hlist, hbefore⟩⟩
  unfold check
  split
  · rename_i a ha
    obtain ⟨before, after, hlist, hrest⟩ := (hfirst a).mp ha
    constructor
    · rintro ⟨⟩
      exact ⟨before, a, after, hlist, rfl, hrest⟩
    · rintro ⟨before', b, after', hlist', rfl, hrest'⟩
      have hb := (hfirst b).mpr ⟨before', after', hlist', hrest'⟩
      rw [ha, Option.some.injEq] at hb
      rw [hb]
  · rename_i hnone
    refine ⟨(nomatch ·), fun ⟨before, a, after, hlist, _, hrest⟩ => ?_⟩
    have ha := (hfirst a).mpr ⟨before, after, hlist, hrest⟩
    rw [hnone] at ha
    cases ha

theorem pairwise_heads (g : Grammar) : g.heads.Pairwise (·.id < ·.id) := by
  have hordered : g.heads.Pairwise fun a b => compare a b = .lt := ExtTreeMap.ordered_keys
  exact hordered.imp fun hless => Nat.compare_eq_lt.mp hless

theorem warnings_of_check {unreachable : List Nonterminal} (h : g.check = .ok unreachable) :
    g.warnings = unreachable.map fun a =>
      ⟨.warning, s!"Nonterminal {a.text} is unreachable from {g.start.text}."⟩ := by
  rw [warnings, h]

/-- The check fails if a reference has no productions, and names the first one. Otherwise the search for reachable
nonterminals ends, and there is a warning for each head that occurs in no string derived from the start symbol. -/
theorem check_is_exact (constructed : g.Constructed) :
    ((∃ e, g.check = .error e) ↔
      ∃ a, (a = g.start ∨ ∃ p ∈ g.productions, .nonterminal a ∈ p.symbols) ∧ ∀ p ∈ g.productions, p.head ≠ a) ∧
    (∀ e, g.check = .error e →
      ∃ before a after, g.start :: g.productions.flatMap Production.nonterminals = before ++ a :: after ∧
        e = .undefinedNonterminal a ∧ (∀ p ∈ g.productions, p.head ≠ a) ∧
        ∀ b ∈ before, ∃ p ∈ g.productions, p.head = b) ∧
    ∀ unreachable, g.check = .ok unreachable →
      (∃ limit found, Reachability.Search.run g.neighbours limit (.start [g.start]) = some found ∧
        unreachable = g.heads.filter (· ∉ found)) ∧
      unreachable.Pairwise (·.id < ·.id) ∧
      (∀ a, a ∈ unreachable ↔ (∃ p ∈ g.productions, p.head = a) ∧
        ¬∃ x y, g.Derives [.nonterminal g.start] (x ++ .nonterminal a :: y)) ∧
      g.warnings = unreachable.map fun a =>
        ⟨.warning, s!"Nonterminal {a.text} is unreachable from {g.start.text}."⟩ := by
  have hg := constructed.wellFormed
  refine ⟨?_, fun e herror => ?_, fun unreachable hok => ⟨?_, ?_, fun a => ?_, warnings_of_check hok⟩⟩
  · have hfails : (∃ e, g.check = .error e) ↔ ¬g.Closed := by
      rw [closed_iff_check]
      cases g.check <;> simp
    rw [hfails, Closed]
    simp only [not_forall, Bool.not_eq_true, exists_prop, mem_referenced_iff, hg.defines_eq_false_iff]
  · obtain ⟨before, a, after, hlist, heq, hundefined, hbefore⟩ := check_eq_error_iff.mp herror
    exact ⟨before, a, after, hlist, heq, hg.defines_eq_false_iff.mp hundefined,
      fun b hb => hg.defines_iff.mp (hbefore b hb)⟩
  · obtain ⟨limit, hrun⟩ := g.exists_search
    exact ⟨limit, g.reachable, hrun, eq_filter_of_check hok⟩
  · rw [eq_filter_of_check hok]
    exact g.pairwise_heads.filter _
  · rw [eq_filter_of_check hok, List.mem_filter, mem_heads, hg.defines_iff, decide_eq_true_eq, mem_reachable_iff hg]
    rfl

/-- A grammar whose first production refers to a nonterminal without productions. -/
def dangling : Grammar where
  vocabulary := ⟨3, 3⟩
  start := ⟨0⟩
  arena := #[⟨⟨0⟩, ⟨0⟩, [.terminal ⟨2⟩, .nonterminal ⟨2⟩]⟩, ⟨⟨1⟩, ⟨1⟩, [.nonterminal ⟨0⟩]⟩]
  index := .ofList [((⟨0⟩ : ProductionId), 0), (⟨1⟩, 1)]
  rules := .ofList [((⟨0⟩ : Nonterminal), #[0]), (⟨1⟩, #[1])]

/-- The grammar with a production that leads back to the start symbol in place of the missing ones. -/
def mended : Grammar where
  vocabulary := ⟨3, 3⟩
  start := ⟨0⟩
  arena := #[⟨⟨0⟩, ⟨0⟩, [.terminal ⟨2⟩, .nonterminal ⟨2⟩]⟩, ⟨⟨1⟩, ⟨1⟩, [.nonterminal ⟨0⟩]⟩,
    ⟨⟨2⟩, ⟨2⟩, [.nonterminal ⟨0⟩]⟩]
  index := .ofList [((⟨0⟩ : ProductionId), 0), (⟨1⟩, 1), (⟨2⟩, 2)]
  rules := .ofList [((⟨0⟩ : Nonterminal), #[0]), (⟨1⟩, #[1]), (⟨2⟩, #[2])]

theorem build_mended :
    build ⟨3, 3⟩ ⟨0⟩
      [⟨⟨0⟩, [⟨⟨0⟩, [.terminal ⟨2⟩, .nonterminal ⟨2⟩]⟩]⟩, ⟨⟨1⟩, [⟨⟨1⟩, [.nonterminal ⟨0⟩]⟩]⟩,
        ⟨⟨2⟩, [⟨⟨2⟩, [.nonterminal ⟨0⟩]⟩]⟩] = .ok mended := by cbv

theorem constructed_dangling : dangling.Constructed := by
  have hstart : ofStart ⟨3, 3⟩ ⟨0⟩ = .ok ⟨⟨3, 3⟩, ⟨0⟩, #[], ∅, ∅⟩ := rfl
  have hadded : ([⟨⟨0⟩, [⟨⟨0⟩, [.terminal ⟨2⟩, .nonterminal ⟨2⟩]⟩]⟩, ⟨⟨1⟩, [⟨⟨1⟩, [.nonterminal ⟨0⟩]⟩]⟩].foldl
      Builder.addRule ⟨⟨⟨3, 3⟩, ⟨0⟩, #[], ∅, ∅⟩, none⟩).grammar = dangling := by cbv
  rw [← hadded]
  exact Builder.constructed_foldl_addRule (.start hstart) _

theorem check_of_dangling_and_mended_is_exact :
    (dangling.check = .error (.undefinedNonterminal ⟨2⟩) ∧
      ∃ a, (a = dangling.start ∨ ∃ p ∈ dangling.productions, .nonterminal a ∈ p.symbols) ∧
        ∀ p ∈ dangling.productions, p.head ≠ a) ∧
    mended.check = .ok [⟨1⟩] ∧ ¬∃ x y, mended.Derives [.nonterminal ⟨0⟩] (x ++ .nonterminal ⟨1⟩ :: y) := by
  obtain ⟨hfails, _, _⟩ := check_is_exact constructed_dangling
  obtain ⟨_, _, hsucceeds⟩ := check_is_exact (constructed_of_build build_mended)
  have herror : dangling.check = .error (.undefinedNonterminal ⟨2⟩) := by cbv
  have hok : mended.check = .ok [⟨1⟩] := by cbv
  obtain ⟨_, _, hreported, _⟩ := hsucceeds _ hok
  exact ⟨⟨herror, hfails.mp ⟨_, herror⟩⟩, hok, ((hreported ⟨1⟩).mp (List.mem_singleton_self _)).2⟩

end Grammar

end PredictiveParsing
