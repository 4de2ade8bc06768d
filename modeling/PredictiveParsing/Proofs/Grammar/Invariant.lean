import Mathlib.Data.List.Basic
import PredictiveParsing.Grammar.Builder
import PredictiveParsing.Proofs.Failure

/-! # Constructed grammars

A grammar is constructed by adding productions to the empty one, and a production is made symbol by symbol. The
index and the rules of a constructed grammar agree with its productions: a number leads to the only production that
has it, and a head to the places of its alternatives in ascending order. Everything that is proved of grammars is
proved of constructed ones. -/

namespace PredictiveParsing

open Std

namespace Production

/-- Begun with a symbol and extended symbol by symbol. -/
inductive Constructed : Production → Prop where
  | begin {v : Vocabulary} {id : ProductionId} {head : Nonterminal} {first : Symbol} {p : Production}
      (begun : Production.begin v id head first = .ok p) : Constructed p
  | extend {v : Vocabulary} {symbol : Symbol} {p q : Production} (made : Constructed p)
      (extended : p.extend v symbol = .ok q) : Constructed q

theorem wellFormed_of_begin {v : Vocabulary} {id : ProductionId} {head : Nonterminal} {first : Symbol}
    {p : Production} (h : Production.begin v id head first = .ok p) : p.WellFormed := by
  simp only [Production.begin, bind_eq_ok_iff, pure_eq_ok_iff] at h
  obtain ⟨_, _, symbol, _, rfl⟩ := h
  by_cases hepsilon : symbol = .terminal .epsilon
  · exact Or.inl (by rw [hepsilon])
  · exact Or.inr ⟨by simp, by simpa using hepsilon⟩

theorem wellFormed_of_extend {v : Vocabulary} {symbol : Symbol} {p q : Production} (hp : p.WellFormed)
    (h : p.extend v symbol = .ok q) : q.WellFormed := by
  simp only [Production.extend, bind_eq_ok_iff, Vocabulary.check_eq_ok_iff] at h
  obtain ⟨_, ⟨_, rfl⟩, h⟩ := h
  split at h
  · cases h
  rename_i hplain
  split at h
  · cases h
  rename_i hsymbol
  cases h
  rcases hp with hp | ⟨_, hfree⟩
  · exact absurd (by rw [isEpsilon, hp]; rfl) hplain
  · refine Or.inr ⟨by simp, fun s hs => ?_⟩
    rcases List.mem_append.mp hs with hs | hs
    · exact hfree s hs
    · rw [List.mem_singleton.mp hs]
      rintro rfl
      exact hsymbol rfl

theorem Constructed.wellFormed {p : Production} (h : p.Constructed) : p.WellFormed := by
  induction h with
  | begin begun => exact wellFormed_of_begin begun
  | extend _ extended ih => exact wellFormed_of_extend ih extended

theorem WellFormed.symbols_of_isEpsilon {p : Production} (h : p.WellFormed) (epsilon : p.isEpsilon = true) :
    p.symbols = [.terminal .epsilon] := by
  rcases h with h | ⟨_, hfree⟩
  · exact h
  · cases hsymbols : p.symbols with
    | nil => simp [isEpsilon, hsymbols] at epsilon
    | cons first rest =>
        have hne := hfree first (by simp [hsymbols])
        cases first with
        | terminal t =>
            have ht : t = .epsilon := by simpa [isEpsilon, hsymbols, Symbol.isEpsilon] using epsilon
            exact absurd (by rw [ht]) hne
        | nonterminal a => simp [isEpsilon, hsymbols, Symbol.isEpsilon] at epsilon

end Production

namespace Grammar

/-- The places of the productions of a head, in ascending order. -/
def places (g : Grammar) (a : Nonterminal) : List Nat :=
  (List.range g.arena.size).filter fun i => g.arena[i]?.any (·.head = a)

/-- The index and the rules agree with the productions, and each of these is well formed. -/
structure WellFormed (g : Grammar) : Prop where
  indexed : ∀ (id : ProductionId) (i : Nat), g.index[id]? = some i ↔ ∃ p : Production, g.arena[i]? = some p ∧ p.id = id
  grouped : ∀ a, g.rules[a]? = if g.places a = [] then none else some (g.places a).toArray
  wellFormed : ∀ p ∈ g.productions, p.WellFormed

/-- Started with a vocabulary and a start symbol, and extended production by production. -/
inductive Constructed : Grammar → Prop where
  | start {v : Vocabulary} {start : Nonterminal} {g : Grammar} (started : ofStart v start = .ok g) : Constructed g
  | insert {head : Nonterminal} {p : Production} {g g' : Grammar} (made : Constructed g) (fresh : p.Constructed)
      (inserted : g.insert head p = .ok g') : Constructed g'

theorem eq_of_ofStart {v : Vocabulary} {start : Nonterminal} {g : Grammar} (h : ofStart v start = .ok g) :
    g = ⟨v, start, #[], ∅, ∅⟩ := by
  simp only [ofStart, bind_eq_ok_iff, pure_eq_ok_iff] at h
  obtain ⟨_, _, rfl⟩ := h
  rfl

/-- A production is added if it is one for the head and has a fresh number. -/
theorem insert_eq_ok_iff {head : Nonterminal} {p : Production} {g g' : Grammar} :
    g.insert head p = .ok g' ↔ p.head = head ∧ p.id ∉ g.index ∧ g' =
      { g with
        arena := g.arena.push p
        index := g.index.insert p.id g.arena.size
        rules := g.rules.insert head ((g.rules[head]?.getD #[]).push g.arena.size) } := by
  unfold insert
  split
  · rename_i hhead
    exact ⟨(nomatch ·), fun h => absurd h.1 hhead⟩
  · rename_i hhead
    split
    · rename_i hindex
      exact ⟨(nomatch ·), fun h => absurd hindex h.2.1⟩
    · rename_i hfresh
      rw [Except.ok.injEq]
      exact ⟨fun heq => ⟨Classical.not_not.mp hhead, hfresh, heq.symm⟩, fun h => h.2.2.symm⟩

theorem productions_of_insert {head : Nonterminal} {p : Production} {g g' : Grammar} (h : g.insert head p = .ok g') :
    g'.productions = g.productions ++ [p] := by
  obtain ⟨_, _, rfl⟩ := insert_eq_ok_iff.mp h
  exact Array.toList_push

theorem vocabulary_of_insert {head : Nonterminal} {p : Production} {g g' : Grammar} (h : g.insert head p = .ok g') :
    g'.vocabulary = g.vocabulary := by
  obtain ⟨_, _, rfl⟩ := insert_eq_ok_iff.mp h
  rfl

theorem wellFormed_of_start {v : Vocabulary} {start : Nonterminal} {g : Grammar} (h : ofStart v start = .ok g) :
    g.WellFormed := by
  rw [eq_of_ofStart h]
  exact ⟨by simp, by simp [places], by simp [productions]⟩

variable {g : Grammar}

theorem mem_productions_iff {p : Production} : p ∈ g.productions ↔ ∃ i : Nat, g.arena[i]? = some p := by
  rw [productions, Array.mem_toList_iff, Array.mem_iff_getElem?]

theorem mem_places_iff {a : Nonterminal} {i : Nat} :
    i ∈ g.places a ↔ ∃ p : Production, g.arena[i]? = some p ∧ p.head = a := by
  rw [places, List.mem_filter, List.mem_range]
  constructor
  · rintro ⟨hi, h⟩
    rw [Array.getElem?_eq_getElem hi] at h ⊢
    exact ⟨_, rfl, by simpa using h⟩
  · rintro ⟨p, hp, rfl⟩
    exact ⟨(Array.getElem?_eq_some_iff.mp hp).1, by simp [hp]⟩

/-- A further production comes last among the places of its head. -/
theorem places_push {p : Production} {index : ExtTreeMap ProductionId Nat}
    {rules : ExtTreeMap Nonterminal (Array Nat)} (a : Nonterminal) :
    places { g with arena := g.arena.push p, index, rules } a =
      g.places a ++ if p.head = a then [g.arena.size] else [] := by
  rw [places, places, Array.size_push, List.range_succ, List.filter_append]
  congr 1
  · refine List.filter_congr fun i hi => ?_
    rw [Array.getElem?_push_lt (List.mem_range.mp hi), Array.getElem?_eq_getElem (List.mem_range.mp hi)]
  · by_cases hhead : p.head = a <;> simp [hhead]

/-- The index stays in step when a production with a fresh number is added. -/
theorem indexed_push (hg : g.WellFormed) {p : Production} (hfresh : p.id ∉ g.index) (id : ProductionId) (i : Nat) :
    (g.index.insert p.id g.arena.size)[id]? = some i ↔
      ∃ q : Production, (g.arena.push p)[i]? = some q ∧ q.id = id := by
  have hother : ∀ (i : Nat) (q : Production), g.arena[i]? = some q → q.id ≠ p.id := by
    intro i q hq heq
    have hi := (hg.indexed p.id i).mpr ⟨q, hq, heq⟩
    exact hfresh (ExtTreeMap.mem_iff_isSome_getElem?.mpr (by rw [hi]; rfl))
  simp only [ExtTreeMap.getElem?_insert, LawfulEqOrd.compare_eq_iff_eq, Array.getElem?_push]
  by_cases hid : p.id = id
  · subst hid
    rw [if_pos rfl]
    constructor
    · rintro ⟨⟩
      exact ⟨p, by simp, rfl⟩
    · rintro ⟨q, hq, hqid⟩
      split at hq
      · rename_i hi
        rw [hi]
      · exact absurd hqid (hother i q hq)
  · rw [if_neg hid, hg.indexed]
    constructor
    · rintro ⟨q, hq, hqid⟩
      refine ⟨q, ?_, hqid⟩
      rw [if_neg (Nat.ne_of_lt (Array.getElem?_eq_some_iff.mp hq).1)]
      exact hq
    · rintro ⟨q, hq, hqid⟩
      split at hq
      · cases hq
        exact absurd hqid hid
      · exact ⟨q, hq, hqid⟩

theorem wellFormed_of_insert {head : Nonterminal} {p : Production} {g' : Grammar} (hg : g.WellFormed)
    (hp : p.WellFormed) (h : g.insert head p = .ok g') : g'.WellFormed := by
  obtain ⟨rfl, hfresh, rfl⟩ := insert_eq_ok_iff.mp h
  refine ⟨indexed_push hg hfresh, fun a => ?_, fun q hq => ?_⟩
  · simp only [ExtTreeMap.getElem?_insert, LawfulEqOrd.compare_eq_iff_eq, places_push, hg.grouped]
    by_cases hhead : p.head = a
    · subst hhead
      by_cases hplaces : g.places p.head = [] <;> simp [hplaces]
    · simp [hhead]
  · rw [productions, Array.toList_push, List.mem_append, List.mem_singleton] at hq
    rcases hq with hq | rfl
    · exact hg.wellFormed q hq
    · exact hp

theorem Constructed.wellFormed (h : g.Constructed) : g.WellFormed := by
  induction h with
  | start started => exact wellFormed_of_start started
  | insert _ fresh inserted ih => exact wellFormed_of_insert ih fresh.wellFormed inserted

namespace WellFormed

/-- A number leads to the only production that has it. -/
theorem get?_eq_some_iff (hg : g.WellFormed) {id : ProductionId} {p : Production} :
    g.get? id = some p ↔ p ∈ g.productions ∧ p.id = id := by
  rw [get?, Option.bind_eq_some_iff, mem_productions_iff]
  constructor
  · rintro ⟨i, hi, hp⟩
    obtain ⟨q, hq, hid⟩ := (hg.indexed id i).mp hi
    rw [hp] at hq
    cases hq
    exact ⟨⟨i, hp⟩, hid⟩
  · rintro ⟨⟨i, hp⟩, hid⟩
    exact ⟨i, (hg.indexed id i).mpr ⟨p, hp, hid⟩, hp⟩

theorem get?_id (hg : g.WellFormed) {p : Production} (mem : p ∈ g.productions) : g.get? p.id = some p :=
  hg.get?_eq_some_iff.mpr ⟨mem, rfl⟩

theorem eq_of_id_eq (hg : g.WellFormed) {p q : Production} (hp : p ∈ g.productions) (hq : q ∈ g.productions)
    (h : p.id = q.id) : p = q := by
  have hget := hg.get?_id hp
  rw [h, hg.get?_id hq] at hget
  exact (Option.some.inj hget).symm

theorem pairwise_id_ne (hg : g.WellFormed) : g.productions.Pairwise fun p q => p.id ≠ q.id := by
  rw [List.pairwise_iff_getElem]
  intro i j hi hj hlt heq
  have hplace : ∀ (n : Nat) (h : n < g.productions.length), g.index[g.productions[n].id]? = some n := by
    intro n h
    exact (hg.indexed _ n).mpr ⟨g.productions[n], by simp [productions], rfl⟩
  have hindex := hplace i hi
  rw [heq, hplace j hj, Option.some.injEq] at hindex
  omega

theorem defines_iff (hg : g.WellFormed) {a : Nonterminal} :
    g.defines a = true ↔ ∃ p ∈ g.productions, p.head = a := by
  rw [defines, ExtTreeMap.contains_eq_isSome_getElem?, hg.grouped]
  constructor
  · intro h
    split at h
    · cases h
    · rename_i hplaces
      obtain ⟨i, hi⟩ := List.exists_mem_of_ne_nil _ hplaces
      obtain ⟨p, hp, hhead⟩ := mem_places_iff.mp hi
      exact ⟨p, mem_productions_iff.mpr ⟨i, hp⟩, hhead⟩
  · rintro ⟨p, mem, hhead⟩
    obtain ⟨i, hp⟩ := mem_productions_iff.mp mem
    rw [if_neg (List.ne_nil_of_mem (mem_places_iff.mpr ⟨p, hp, hhead⟩))]
    rfl

/-- The alternatives of a nonterminal are its productions in the order in which they were added. -/
theorem alternatives_eq_filter (hg : g.WellFormed) (a : Nonterminal) :
    g.alternatives a = g.productions.filter (·.head = a) := by
  have hplaces : (g.rules[a]?.getD #[]).toList = g.places a := by
    rw [hg.grouped]
    split
    · rename_i hnil
      rw [hnil]
      rfl
    · rfl
  have hentries : (List.range g.arena.size).map (g.arena[·]?) = g.productions.map some := by
    apply List.ext_getElem
    · simp [productions]
    · intro i hi _
      rw [List.length_map, List.length_range] at hi
      simp [productions, hi]
  have harena : g.productions = (List.range g.arena.size).filterMap (g.arena[·]?) := by
    calc
      _ = (g.productions.map some).filterMap id := by
        rw [List.filterMap_map]
        exact List.filterMap_some.symm
      _ = _ := by
        rw [← hentries, List.filterMap_map]
        rfl
  rw [alternatives, hplaces, places, List.filterMap_filter, harena, List.filter_filterMap]
  refine List.filterMap_congr fun i _ => ?_
  cases g.arena[i]? with
  | none => simp
  | some p => simp [Option.filter]

theorem mem_alternatives_iff (hg : g.WellFormed) {a : Nonterminal} {p : Production} :
    p ∈ g.alternatives a ↔ p ∈ g.productions ∧ p.head = a := by
  rw [hg.alternatives_eq_filter, List.mem_filter, decide_eq_true_eq]

end WellFormed

end Grammar

/-! The builder keeps every grammar and every pending production constructed, whatever has failed before. -/

namespace Builder

/-- The grammar and the pending production, if there is one, are constructed. -/
def Holds (state : Builder × Option Production) : Prop :=
  state.1.grammar.Constructed ∧ ∀ p, state.2 = some p → p.Constructed

theorem holds_push (id : ProductionId) (head : Nonterminal) {state : Builder × Option Production}
    (h : Holds state) (symbol : Symbol) : Holds (push id head state symbol) := by
  obtain ⟨b, pending⟩ := state
  obtain ⟨hgrammar, hpending⟩ := h
  cases pending with
  | none =>
      cases hbegin : Production.begin b.grammar.vocabulary id head symbol with
      | error e => simpa [push, hbegin, fail, Holds] using hgrammar
      | ok p => simpa [push, hbegin, Holds] using ⟨hgrammar, Production.Constructed.begin hbegin⟩
  | some p =>
      have hp := hpending p rfl
      cases hextend : p.extend b.grammar.vocabulary symbol with
      | error e => simpa [push, hextend, fail, Holds] using ⟨hgrammar, hp⟩
      | ok q => simpa [push, hextend, Holds] using ⟨hgrammar, hp.extend hextend⟩

theorem holds_foldl_push (id : ProductionId) (head : Nonterminal) {state : Builder × Option Production}
    (h : Holds state) (symbols : List Symbol) : Holds (symbols.foldl (push id head) state) := by
  induction symbols generalizing state with
  | nil => exact h
  | cons symbol rest ih => exact ih (holds_push id head h symbol)

theorem holds_complete (id : ProductionId) (head : Nonterminal) {state : Builder × Option Production}
    (h : Holds state) : Holds (complete id head state) := by
  obtain ⟨b, pending⟩ := state
  cases pending with
  | some p => exact h
  | none =>
      rw [complete]
      split
      · exact h
      · exact holds_push id head h (.terminal .epsilon)

theorem constructed_add {b : Builder} (h : b.grammar.Constructed) (head : Nonterminal)
    (alternative : Alternative) : (b.add head alternative).grammar.Constructed := by
  have hnone : Holds (b, none) := ⟨h, by simp⟩
  have hstate := holds_complete alternative.id head
    (holds_foldl_push alternative.id head hnone alternative.symbols)
  unfold add
  split
  · rename_i heq
    rw [heq] at hstate
    exact hstate.1
  · rename_i heq
    rw [heq] at hstate
    split
    · rename_i hinsert
      exact .insert hstate.1 (hstate.2 _ rfl) hinsert
    · exact hstate.1

theorem constructed_addRule {b : Builder} (h : b.grammar.Constructed) (rule : Rule) :
    (b.addRule rule).grammar.Constructed := by
  unfold addRule
  induction rule.alternatives generalizing b with
  | nil => exact h
  | cons alternative rest ih => exact ih (constructed_add h rule.head alternative)

theorem constructed_foldl_addRule {b : Builder} (h : b.grammar.Constructed) (rules : List Rule) :
    (rules.foldl addRule b).grammar.Constructed := by
  induction rules generalizing b with
  | nil => exact h
  | cons rule rest ih => exact ih (constructed_addRule h rule)

end Builder

namespace Grammar

theorem constructed_of_build {v : Vocabulary} {start : Nonterminal} {rules : List Rule} {g : Grammar}
    (h : build v start rules = .ok g) : g.Constructed := by
  rw [build, bind_eq_ok_iff] at h
  obtain ⟨empty, hstart, h⟩ := h
  have hrules := Builder.constructed_foldl_addRule (b := ⟨empty, none⟩) (.start hstart) rules
  rw [Builder.finish] at h
  split at h
  · cases h
  · rw [bind_eq_ok_iff] at h
    obtain ⟨_, _, h⟩ := h
    rw [pure_eq_ok_iff] at h
    rwa [← h]

/-- The grammar of the words that hold some terminals 2 and then as many terminals 3. -/
def nested : Grammar where
  vocabulary := ⟨4, 2⟩
  start := ⟨0⟩
  arena := #[⟨⟨0⟩, ⟨0⟩, [.terminal ⟨2⟩, .nonterminal ⟨0⟩, .terminal ⟨3⟩]⟩, ⟨⟨1⟩, ⟨0⟩, [.nonterminal ⟨1⟩]⟩,
    ⟨⟨2⟩, ⟨1⟩, [.terminal .epsilon]⟩]
  index := .ofList [((⟨0⟩ : ProductionId), 0), (⟨1⟩, 1), (⟨2⟩, 2)]
  rules := .ofList [((⟨0⟩ : Nonterminal), #[0, 1]), (⟨1⟩, #[2])]

theorem build_nested :
    build ⟨4, 2⟩ ⟨0⟩
      [⟨⟨0⟩, [⟨⟨0⟩, [.terminal ⟨2⟩, .nonterminal ⟨0⟩, .terminal ⟨3⟩]⟩, ⟨⟨1⟩, [.nonterminal ⟨1⟩]⟩]⟩,
        ⟨⟨1⟩, [⟨⟨2⟩, []⟩]⟩] = .ok nested := by cbv

theorem constructed_nested : nested.Constructed := constructed_of_build build_nested

theorem mem_productions_nested {p : Production} :
    p ∈ nested.productions ↔ p = ⟨⟨0⟩, ⟨0⟩, [.terminal ⟨2⟩, .nonterminal ⟨0⟩, .terminal ⟨3⟩]⟩ ∨
      p = ⟨⟨1⟩, ⟨0⟩, [.nonterminal ⟨1⟩]⟩ ∨ p = ⟨⟨2⟩, ⟨1⟩, [.terminal .epsilon]⟩ := by
  change p ∈ [_, _, _] ↔ _
  simp only [List.mem_cons, List.not_mem_nil, or_false]

end Grammar

end PredictiveParsing
