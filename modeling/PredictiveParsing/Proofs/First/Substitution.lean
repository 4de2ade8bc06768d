import PredictiveParsing.Proofs.First.Derivation
import PredictiveParsing.Proofs.First.Frames

/-! # Substitution in place

A right-hand side can be rewritten in place: the terminal in front is put out, and the nonterminal in front makes way
for its first alternative that is not the epsilon production, until the word is complete or no symbol is left. What a
reading of a right-hand side puts out is put out in place as well. So if the search finds a word, the rewriting stops
with it, and if the rewriting goes on for ever, the search reports a left recursion. -/

namespace PredictiveParsing

namespace First

/-- The word that has been put out, and the symbols that are left to rewrite. -/
structure Worklist where
  output : Lookahead
  symbols : List Symbol
deriving DecidableEq, Inhabited

namespace Worklist

/-- The list after the symbol in front has been put out, replaced or dropped, unless the word is complete or no symbol
is left. -/
def next? (g : Grammar) (k : Nat) (l : Worklist) : Option Worklist :=
  if l.output.isComplete k then none
  else
    match l.symbols with
    | [] => none
    | .terminal t :: rest => some ⟨⟨l.output.terminals ++ [t]⟩, rest⟩
    | .nonterminal a :: rest =>
      match (g.alternatives a).find? (fun p => !p.isEpsilon) with
      | none => some ⟨l.output, rest⟩
      | some p => some ⟨l.output, p.symbols ++ rest⟩

/-- One list comes out of another in any number of steps. -/
def Reaches (g : Grammar) (k : Nat) : Worklist → Worklist → Prop :=
  Relation.ReflTransGen fun l m => l.next? g k = some m

/-- The rewriting comes to an end with a list. -/
structure StopsAt (g : Grammar) (k : Nat) (l last : Worklist) : Prop where
  reaches : Reaches g k l last
  stopped : last.next? g k = none

variable {g : Grammar} {k : Nat} {l m last : Worklist} {u v : List Terminal} {x z : List Symbol}

theorem StopsAt.of_next (h : l.next? g k = some m) (hstops : m.StopsAt g k last) : l.StopsAt g k last :=
  ⟨.head h hstops.reaches, hstops.stopped⟩

theorem next?_eq_none_iff : l.next? g k = none ↔ l.output.isComplete k = true ∨ l.symbols = [] := by
  unfold next?
  split
  · rename_i hcomplete
    exact iff_of_true rfl (Or.inl hcomplete)
  · rename_i hopen
    split
    · rename_i hnil
      exact iff_of_true rfl (Or.inr hnil)
    · rename_i hcons
      exact iff_of_false (Option.some_ne_none _) (by simp [hopen, hcons])
    · rename_i hcons
      refine iff_of_false ?_ (by simp [hopen, hcons])
      split <;> exact Option.some_ne_none _

/-- A complete word is not read on. -/
theorem stopsAt_of_isComplete (complete : Lookahead.isComplete ⟨u⟩ k = true) (within : Lookahead.Within k ⟨u ++ v⟩)
    (x : List Symbol) : StopsAt g k ⟨⟨u⟩, x⟩ ⟨⟨u ++ v⟩, x⟩ ∧ Reading g x v x := by
  obtain rfl : v = [] := Lookahead.eq_nil_of_isComplete complete within
  rw [List.append_nil]
  exact ⟨⟨.refl, next?_eq_none_iff.mpr (Or.inl complete)⟩, .stop x⟩

/-- What is read until the word is complete or nothing is left is put out in place too. The rewriting may stop at a
complete word before the reading does. -/
theorem exists_stopsAt_of_reading (hg : g.WellFormed) (plain : ∀ symbol ∈ x, symbol ≠ .terminal .epsilon)
    (h : Reading g x v z) (within : Lookahead.Within k ⟨u ++ v⟩)
    (stop : Lookahead.isComplete ⟨u ++ v⟩ k = true ∨ z = []) :
    ∃ z', StopsAt g k ⟨⟨u⟩, x⟩ ⟨⟨u ++ v⟩, z'⟩ ∧ Reading g x v z' := by
  induction h generalizing u with
  | stop x =>
      rw [List.append_nil] at stop ⊢
      exact ⟨x, ⟨.refl, next?_eq_none_iff.mpr stop⟩, .stop x⟩
  | @terminal t x z v ht _ ih =>
      have hopen : ¬Lookahead.isComplete ⟨u⟩ k = true := fun hcomplete =>
        List.cons_ne_nil t v (Lookahead.eq_nil_of_isComplete hcomplete within)
      rw [List.append_cons] at within stop ⊢
      obtain ⟨z', hstops, hread⟩ := ih (List.forall_mem_cons.mp plain).2 within stop
      have hnext : next? g k ⟨⟨u⟩, .terminal t :: x⟩ = some ⟨⟨u ++ [t]⟩, x⟩ := by simp [next?, hopen]
      exact ⟨z', hstops.of_next hnext, .terminal ht hread⟩
  | epsilon => exact absurd rfl (List.forall_mem_cons.mp plain).1
  | @drop a x z v choice _ ih =>
      by_cases hcomplete : Lookahead.isComplete ⟨u⟩ k = true
      · exact ⟨_, stopsAt_of_isComplete hcomplete within _⟩
      · obtain ⟨z', hstops, hread⟩ := ih (List.forall_mem_cons.mp plain).2 within stop
        have hnext : next? g k ⟨⟨u⟩, .nonterminal a :: x⟩ = some ⟨⟨u⟩, x⟩ := by
          simp [next?, hcomplete, (replacement?_eq_ok_iff.mp choice).2]
        exact ⟨z', hstops.of_next hnext, .drop choice hread⟩
  | @replace a p x z v choice _ ih =>
      by_cases hcomplete : Lookahead.isComplete ⟨u⟩ k = true
      · exact ⟨_, stopsAt_of_isComplete hcomplete within _⟩
      · obtain ⟨z', hstops, hread⟩ := ih (ne_epsilon_of_replacement? hg choice plain) within stop
        have hnext : next? g k ⟨⟨u⟩, .nonterminal a :: x⟩ = some ⟨⟨u⟩, p.symbols ++ x⟩ := by
          simp [next?, hcomplete, (replacement?_eq_ok_iff.mp choice).2]
        exact ⟨z', hstops.of_next hnext, .replace choice hread⟩

end Worklist

variable {g : Grammar} {k : Nat} {p : Production}

/-- The word of a production is what its right-hand side puts out when it is rewritten in place, and the right-hand
side derives it with the symbols that are left. -/
theorem exists_stopsAt_of_ofProduction (hg : g.WellFormed) (mem : p ∈ g.productions) (plain : p.isEpsilon = false)
    {s : Lookahead} (h : ofProduction g k p = .ok s) :
    ∃ z, Worklist.StopsAt g k ⟨.empty, p.symbols⟩ ⟨s, z⟩ ∧ g.Derives p.symbols (s.terminals.map .terminal ++ z) ∧
      (s.isComplete k = false → z = []) := by
  have hsymbols := (hg.wellFormed p mem).symbols_ne_epsilon plain
  obtain ⟨hwithin, z, hread, hstop⟩ := reading_of_ofProduction plain h
  obtain ⟨z', hstops, hread'⟩ := Worklist.exists_stopsAt_of_reading (u := []) hg hsymbols hread hwithin hstop
  refine ⟨z', hstops, hread'.derives hg hsymbols, fun hopen => ?_⟩
  refine (Worklist.next?_eq_none_iff.mp hstops.stopped).resolve_left ?_
  exact Bool.eq_false_iff.mp hopen

/-- The search with a stack comes to an end for every production of a grammar that passes the check. If it finds a
word, the rewriting in place stops with this word, and the right-hand side derives the word and what is left, which is
nothing unless the word is complete. If the rewriting never stops, a left recursion is reported. -/
theorem word_is_substituted (constructed : g.Constructed) (checked : ∃ unreachable, g.check = .ok unreachable)
    (pos : 0 < k) (mem : p ∈ g.productions) (plain : p.isEpsilon = false) :
    (∀ result, (Search.start p).Ends g k result ↔ result = ofProduction g k p) ∧
    (∀ s, ofProduction g k p = .ok s →
      ∃ z, Worklist.StopsAt g k ⟨.empty, p.symbols⟩ ⟨s, z⟩ ∧ g.Derives p.symbols (s.terminals.map .terminal ++ z) ∧
        (s.isComplete k = false → z = [])) ∧
    ((∀ last, ¬Worklist.StopsAt g k ⟨.empty, p.symbols⟩ last) → ∃ a, ofProduction g k p = .error (.leftRecursion a)) := by
  have hg := constructed.wellFormed
  refine ⟨fun _ => ends_iff pos plain, fun s => exists_stopsAt_of_ofProduction hg mem plain, fun hnever => ?_⟩
  cases hword : ofProduction g k p with
  | ok s =>
      obtain ⟨z, hstops, _⟩ := exists_stopsAt_of_ofProduction hg mem plain hword
      exact absurd hstops (hnever _)
  | error e =>
      obtain ⟨q, _, _, rfl⟩ := exists_loop_of_ofProduction_error hg (Grammar.closed_iff_check.mpr checked) mem hword
      exact ⟨q.head, rfl⟩

end First

namespace Grammar

/-- The grammar of a terminal with any number of another one behind it, written with a left recursion. -/
def growing : Grammar where
  vocabulary := ⟨4, 1⟩
  start := ⟨0⟩
  arena := #[⟨⟨0⟩, ⟨0⟩, [.nonterminal ⟨0⟩, .terminal ⟨2⟩]⟩, ⟨⟨1⟩, ⟨0⟩, [.terminal ⟨3⟩]⟩]
  index := .ofList [((⟨0⟩ : ProductionId), 0), (⟨1⟩, 1)]
  rules := .ofList [((⟨0⟩ : Nonterminal), #[0, 1])]

theorem build_growing :
    build ⟨4, 1⟩ ⟨0⟩
      [⟨⟨0⟩, [⟨⟨0⟩, [.nonterminal ⟨0⟩, .terminal ⟨2⟩]⟩, ⟨⟨1⟩, [.terminal ⟨3⟩]⟩]⟩] = .ok growing := by cbv

theorem alternatives_growing :
    growing.alternatives ⟨0⟩ = [⟨⟨0⟩, ⟨0⟩, [.nonterminal ⟨0⟩, .terminal ⟨2⟩]⟩, ⟨⟨1⟩, ⟨0⟩, [.terminal ⟨3⟩]⟩] := by cbv

/-- The left recursion comes back to the front of the list whenever it is replaced. -/
theorem not_stopsAt_growing (last : First.Worklist) :
    ¬First.Worklist.StopsAt growing 1 ⟨.empty, [.nonterminal ⟨0⟩, .terminal ⟨2⟩]⟩ last := by
  have hnext : ∀ x, First.Worklist.next? growing 1 ⟨.empty, .nonterminal ⟨0⟩ :: x⟩ =
      some ⟨.empty, .nonterminal ⟨0⟩ :: .terminal ⟨2⟩ :: x⟩ := by
    intro x
    simp only [First.Worklist.next?, alternatives_growing]
    rfl
  have hfront : ∀ l, First.Worklist.Reaches growing 1 ⟨.empty, [.nonterminal ⟨0⟩, .terminal ⟨2⟩]⟩ l →
      ∃ x, l = ⟨.empty, .nonterminal ⟨0⟩ :: x⟩ := by
    intro l hreaches
    induction hreaches with
    | refl => exact ⟨_, rfl⟩
    | tail _ hlast ih =>
        obtain ⟨x, rfl⟩ := ih
        rw [hnext] at hlast
        exact ⟨_, (Option.some.inj hlast).symm⟩
  rintro ⟨hreaches, hstopped⟩
  obtain ⟨x, rfl⟩ := hfront last hreaches
  rw [hnext] at hstopped
  cases hstopped

theorem words_of_nested_and_growing_are_substituted :
    (∃ z, First.Worklist.StopsAt nested 2 ⟨.empty, [.terminal ⟨2⟩, .nonterminal ⟨0⟩, .terminal ⟨3⟩]⟩
        ⟨⟨[⟨2⟩, ⟨2⟩]⟩, z⟩ ∧
      nested.Derives [.terminal ⟨2⟩, .nonterminal ⟨0⟩, .terminal ⟨3⟩] (.terminal ⟨2⟩ :: .terminal ⟨2⟩ :: z)) ∧
    ∃ a, (First.Search.start ⟨⟨0⟩, ⟨0⟩, [.nonterminal ⟨0⟩, .terminal ⟨2⟩]⟩).Ends growing 1
      (.error (.leftRecursion a)) := by
  obtain ⟨_, hnested, _⟩ := First.word_is_substituted (k := 2) constructed_nested ⟨[], by cbv⟩ (by decide)
    (p := ⟨⟨0⟩, ⟨0⟩, [.terminal ⟨2⟩, .nonterminal ⟨0⟩, .terminal ⟨3⟩]⟩) (by decide) (by decide)
  obtain ⟨hends, _, hnever⟩ := First.word_is_substituted (k := 1) (constructed_of_build build_growing) ⟨[], by cbv⟩
    (by decide) (p := ⟨⟨0⟩, ⟨0⟩, [.nonterminal ⟨0⟩, .terminal ⟨2⟩]⟩) (by decide) (by decide)
  constructor
  · obtain ⟨z, hstops, hderives, _⟩ := hnested ⟨[⟨2⟩, ⟨2⟩]⟩ (by cbv)
    exact ⟨z, hstops, hderives⟩
  · obtain ⟨a, ha⟩ := hnever not_stopsAt_growing
    exact ⟨a, (hends _).mpr ha.symm⟩

end Grammar

end PredictiveParsing
