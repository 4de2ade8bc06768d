import PredictiveParsing.Proofs.Follow
import PredictiveParsing.Proofs.Nullable
import PredictiveParsing.Proofs.Table.Registration

/-! # Claims of productions

Whether a right-hand side can generate a word is decided with nothing but the FIRST sets and the nullable set. All the
same every reading that puts out a word within the bound is found, because the word of the first alternative of a
nonterminal agrees with the reading as far as both go. So each production generates its own word: it is reached, and
it becomes the entry of its word, or of what follows its head if its word is empty. -/

namespace PredictiveParsing

open Std

namespace Prediction

variable {g : Grammar} {k : Nat} {found : Prediction}

/-- What has been found are the analyses of a grammar. -/
structure Describes (found : Prediction) (g : Grammar) (k : Nat) : Prop where
  pos : 0 < k
  bound : found.k = k
  nullable : found.nullable = g.nullable
  firsts : g.firstSets k = .ok found.firsts
  follows : found.follows = g.followSets k found.firsts g.nullable

theorem describes_of_prediction (h : g.prediction k = .ok found) : found.Describes g k := by
  obtain ⟨hpos, firsts, hfirsts, rfl⟩ := Grammar.exists_of_prediction h
  exact ⟨hpos, rfl, rfl, hfirsts, rfl⟩

/-- A nonterminal read as a word has a FIRST word that begins with it, and is it if nothing is left to read. -/
theorem exists_first_of_reading (hg : g.WellFormed) (hfound : found.Describes g k) {a : Nonterminal}
    {v : List Terminal} {z : List Symbol} (h : First.Reading g [.nonterminal a] v z) (hne : v ≠ [])
    (within : Lookahead.Within k ⟨v⟩) :
    ∃ w ∈ found.firsts.get a, v <+: w.terminals ∧ (z = [] → w.terminals = v) := by
  cases h with
  | stop => exact absurd rfl hne
  | drop _ rest => exact absurd rest.eq_nil_of_nil.1 hne
  | @replace _ p _ _ _ choice rest =>
      rw [List.append_nil] at rest
      obtain ⟨hp, hhead, hplain⟩ := First.mem_of_replacement? hg choice
      obtain ⟨w, hw⟩ := Grammar.exists_ofProduction_of_firstSets hfound.firsts hp
      refine ⟨w, (Grammar.mem_get_firstSets hfound.firsts).mpr ⟨p, hp, hhead, hw⟩, ?_⟩
      obtain ⟨_, z', hread, hstop⟩ := First.reading_of_ofProduction hplain hw
      rcases rest.comparable hread with ⟨u, hu, hlater⟩ | ⟨u, rfl, hlater⟩
      · refine ⟨⟨u, hu.symm⟩, ?_⟩
        rintro rfl
        rw [hu, hlater.eq_nil_of_nil.1, List.append_nil]
      · have hnil : u = [] := by
          rcases hstop with hcomplete | rfl
          · exact Lookahead.eq_nil_of_isComplete hcomplete within
          · exact hlater.eq_nil_of_nil.1
        rw [hnil, List.append_nil]
        exact ⟨List.prefix_rfl, fun _ => rfl⟩

theorem generates_nil (complete : Bool) (x : List Symbol) :
    found.generates complete x [] = (complete || Nullable.all found.nullable x) := by
  cases x <;> rw [generates]

/-- A word that begins like one of a nonterminal can be generated by it, with what is left for the symbols behind. -/
theorem generates_nonterminal {complete : Bool} {a : Nonterminal} {rest : List Symbol} {u v : List Terminal}
    {w : Lookahead} (hw : w ∈ found.firsts.get a) (hne : u ≠ []) (hwords : w.terminals = u)
    (hrest : found.generates complete rest v = true) :
    found.generates complete (.nonterminal a :: rest) (u ++ v) = true := by
  obtain ⟨t, u, rfl⟩ := List.exists_cons_of_ne_nil hne
  rw [List.cons_append, generates, Bool.or_eq_true, List.any_eq_true]
  refine Or.inr ⟨w, ExtTreeSet.mem_toList.mpr hw, ?_⟩
  have hlength : w.length = (t :: u).length := congrArg List.length hwords
  rw [Lookahead.isEmpty, Lookahead.isPrefixOf, hwords]
  cases v with
  | nil =>
      rw [generates_nil] at hrest
      simp [hlength, hrest]
  | cons s v =>
      have hlt : w.length < (t :: (u ++ s :: v)).length := by
        rw [hlength]
        simp
      rw [if_pos hlt, hlength]
      simp [hrest]

theorem generates_of_prefix {a : Nonterminal} {rest : List Symbol} {v : List Terminal} {w : Lookahead}
    (hw : w ∈ found.firsts.get a) (hne : v ≠ []) (hle : v <+: w.terminals) :
    found.generates true (.nonterminal a :: rest) v = true := by
  obtain ⟨t, v, rfl⟩ := List.exists_cons_of_ne_nil hne
  rw [generates, Bool.or_eq_true, List.any_eq_true]
  refine Or.inr ⟨w, ExtTreeSet.mem_toList.mpr hw, ?_⟩
  have hlength : ¬w.length < (t :: v).length := Nat.not_lt.mpr hle.length_le
  have hempty : w.isEmpty = false := by
    rw [Bool.eq_false_iff, ne_eq, Lookahead.isEmpty_iff]
    rintro rfl
    cases List.prefix_nil.mp hle
  rw [if_neg hlength, hempty]
  simpa using hle

/-- How a nonterminal in front takes part in a word: it vanishes, or one of its words begins the word, or the word
begins one of its words. -/
theorem generates_nonterminal_cases {complete : Bool} {a : Nonterminal} {rest : List Symbol} {v : List Terminal}
    (hne : v ≠ []) (h : found.generates complete (.nonterminal a :: rest) v = true) :
    (found.nullable.contains a = true ∧ found.generates complete rest v = true) ∨
      ∃ w ∈ found.firsts.get a, w ≠ .empty ∧
        ((∃ later, later ≠ [] ∧ v = w.terminals ++ later ∧ found.generates complete rest later = true) ∨
          (v <+: w.terminals ∧
            (complete = true ∨ (w.terminals = v ∧ Nullable.all found.nullable rest = true)))) := by
  obtain ⟨t, v, rfl⟩ := List.exists_cons_of_ne_nil hne
  rw [generates, Bool.or_eq_true, Bool.and_eq_true, List.any_eq_true] at h
  rcases h with hvanishes | ⟨w, hw, h⟩
  · exact Or.inl hvanishes
  rw [Bool.and_eq_true, Bool.not_eq_true'] at h
  obtain ⟨hnonempty, h⟩ := h
  refine Or.inr ⟨w, ExtTreeSet.mem_toList.mp hw, ?_, ?_⟩
  · rintro rfl
    cases hnonempty
  · split at h
    · rename_i hshorter
      rw [Bool.and_eq_true, Lookahead.isPrefixOf, List.isPrefixOf_iff_prefix] at h
      obtain ⟨⟨later, hlater⟩, hrest⟩ := h
      rw [← hlater, Lookahead.length, List.drop_left] at hrest
      refine Or.inl ⟨later, ?_, hlater.symm, hrest⟩
      rintro rfl
      rw [← hlater, List.append_nil] at hshorter
      exact absurd rfl (Nat.ne_of_lt hshorter)
    · rw [Bool.and_eq_true, List.isPrefixOf_iff_prefix, Bool.or_eq_true, Bool.and_eq_true, beq_iff_eq] at h
      obtain ⟨hle, h⟩ := h
      refine Or.inr ⟨hle, h.imp_right fun hexact => ?_⟩
      exact ⟨(hle.eq_of_length hexact.1.symm).symm, hexact.2⟩

/-- Whatever is read within the bound, up to the end if the word is not complete, is found to be generated. -/
theorem generates_of_reading (hg : g.WellFormed) (hfound : found.Describes g k) {complete : Bool} {x z : List Symbol}
    {v : List Terminal} (h : First.Reading g x v z) (within : Lookahead.Within k ⟨v⟩)
    (stop : complete = true ∨ z = []) : found.generates complete x v = true := by
  have hnullable : ∀ {x z : List Symbol}, First.Reading g x [] z → complete = true ∨ z = [] →
      found.generates complete x [] = true := by
    intro x z h stop
    rw [generates_nil, Bool.or_eq_true, hfound.nullable]
    rcases stop with hcomplete | rfl
    · exact Or.inl hcomplete
    · exact Or.inr (Grammar.all_nullable_of_reading hg h)
  induction x generalizing v z with
  | nil =>
      obtain ⟨rfl, rfl⟩ := h.eq_nil_of_nil
      exact hnullable h stop
  | cons symbol rest ih =>
      by_cases hv : v = []
      · subst hv
        exact hnullable h stop
      cases symbol with
      | terminal t =>
          cases h with
          | stop => exact absurd rfl hv
          | @terminal _ _ _ v plain h =>
              have hrest := ih h (Lookahead.Within.right (u := [t]) within) stop
              rw [generates, if_neg (mt Terminal.isEpsilon_iff.mp plain), hrest, beq_self_eq_true]
              rfl
          | epsilon h =>
              obtain ⟨s, v, rfl⟩ := List.exists_cons_of_ne_nil hv
              rw [generates, if_pos Terminal.isEpsilon_epsilon]
              exact ih h within stop
      | nonterminal a =>
          rcases First.Reading.append_cases (x := [.nonterminal a]) h with ⟨z', ha, rfl⟩ | ⟨u, v, rfl, ha, hrest⟩
          · obtain ⟨w, hw, hle, heq⟩ := exists_first_of_reading hg hfound ha hv within
            rcases stop with rfl | hnil
            · exact generates_of_prefix hw hv hle
            · obtain ⟨rfl, rfl⟩ := List.append_eq_nil_iff.mp hnil
              rw [← List.append_nil v]
              exact generates_nonterminal hw hv (heq rfl) (hnullable (.stop []) (Or.inr rfl))
          · have hlater := ih hrest within.right stop
            by_cases hu : u = []
            · subst hu
              obtain ⟨s, v, rfl⟩ := List.exists_cons_of_ne_nil hv
              have hall := Grammar.all_nullable_of_reading hg ha
              rw [← hfound.nullable, Nullable.all, List.all_cons, Bool.and_eq_true] at hall
              have hcontains : found.nullable.contains a = true := hall.1
              change found.generates complete (.nonterminal a :: rest) (s :: v) = true
              rw [generates, hcontains, Bool.true_and, Bool.or_eq_true]
              exact Or.inl hlater
            · obtain ⟨w, hw, _, heq⟩ := exists_first_of_reading hg hfound ha hu within.left
              exact generates_nonterminal hw hu (heq rfl) hlater

variable {p : Production} {w : Lookahead}

/-- The word of a production is among those that it generates. -/
theorem mem_generated (hg : g.WellFormed) (hfound : found.Describes g k) (mem : p ∈ g.productions)
    (plain : p.isEpsilon = false) (hw : First.ofProduction g k p = .ok w) : w ∈ found.generated p := by
  obtain ⟨hwithin, z, hread, hstop⟩ := First.reading_of_ofProduction plain hw
  rw [generated, List.mem_filter, ExtTreeSet.mem_toList, hfound.bound]
  exact ⟨(Grammar.mem_get_firstSets hfound.firsts).mpr ⟨p, mem, rfl, hw⟩,
    generates_of_reading hg hfound hread hwithin hstop⟩

theorem isReached_of_mem (hg : g.WellFormed) (hfound : found.Describes g k) (mem : p ∈ g.productions) :
    found.isReached p = true := by
  rw [isReached, Bool.or_eq_true]
  cases hkind : p.isEpsilon with
  | true => exact Or.inl rfl
  | false =>
      obtain ⟨w, hw⟩ := Grammar.exists_ofProduction_of_firstSets hfound.firsts mem
      have hmem := mem_generated hg hfound mem hkind hw
      rw [Bool.not_eq_true', List.isEmpty_eq_false_iff]
      exact Or.inr (List.ne_nil_of_mem hmem)

theorem mem_claims_of_ne_empty (hg : g.WellFormed) (hfound : found.Describes g k) (mem : p ∈ g.productions)
    (plain : p.isEpsilon = false) (hw : First.ofProduction g k p = .ok w) (hne : w ≠ .empty) : w ∈ found.claims p := by
  rw [claims, plain, if_neg Bool.false_ne_true, List.mem_flatMap]
  refine ⟨w, mem_generated hg hfound mem plain hw, ?_⟩
  rw [if_neg (mt Lookahead.isEmpty_iff.mp hne)]
  exact List.mem_singleton_self w

theorem mem_claims_of_follow (hg : g.WellFormed) (hfound : found.Describes g k) (mem : p ∈ g.productions)
    (plain : p.isEpsilon = false) (hw : First.ofProduction g k p = .ok .empty) (hf : w ∈ found.follows.get p.head) :
    w ∈ found.claims p := by
  rw [claims, plain, if_neg Bool.false_ne_true, List.mem_flatMap]
  refine ⟨.empty, mem_generated hg hfound mem plain hw, ?_⟩
  rw [show Lookahead.empty.isEmpty = true from rfl, if_pos rfl, List.mem_map]
  refine ⟨w, ExtTreeSet.mem_toList.mpr hf, ?_⟩
  rw [hfound.follows] at hf
  rw [hfound.bound]
  exact Lookahead.empty_concat hfound.pos (Grammar.within_of_mem_followSets hfound.pos hfound.firsts hf)

end Prediction

namespace Grammar

variable {g : Grammar} {k : Nat}

theorem ne_unreachableProduction_of_table (hg : g.WellFormed) (id : ProductionId) :
    g.table k ≠ .error (.unreachableProduction id) := by
  intro h
  rw [table] at h
  cases hfound : g.prediction k with
  | error e =>
      rw [hfound] at h
      cases h
  | ok found =>
      rw [hfound] at h
      have hdescribes := Prediction.describes_of_prediction hfound
      obtain ⟨a, w, existing, new, heq⟩ :=
        Table.conflict_of_fill_error (fun p mem => Prediction.isReached_of_mem hg hdescribes mem) h
      cases heq

/-- No alternative is dead: no table fails for a production that is not reached, and in a table every production
that is not an epsilon production is the entry of its own word, or of whatever follows its head if that is empty. -/
theorem every_alternative_is_predicted (constructed : g.Constructed) (k : Nat) :
    (∀ id, g.table k ≠ .error (.unreachableProduction id)) ∧
    ∀ table, g.table k = .ok table →
      ∃ firsts, g.firstSets k = .ok firsts ∧
        ∀ p ∈ g.productions, p.isEpsilon = false →
          ∃ s, firsts.word? p.id = some s ∧
            (s ≠ .empty → table.get? p.head s = some p.id) ∧
            (s = .empty → ∀ f ∈ (g.followSets k firsts g.nullable).get p.head, table.get? p.head f = some p.id) := by
  have hg := constructed.wellFormed
  refine ⟨ne_unreachableProduction_of_table hg, fun table htable => ?_⟩
  obtain ⟨found, hfound, hfill⟩ := table_eq_ok_iff.mp htable
  have hdescribes := Prediction.describes_of_prediction hfound
  refine ⟨found.firsts, hdescribes.firsts, fun p mem plain => ?_⟩
  obtain ⟨s, hs⟩ := exists_ofProduction_of_firstSets hdescribes.firsts mem
  have hentry : ∀ w ∈ found.claims p, table.get? p.head w = some p.id := by
    intro w hw
    exact Table.get?_of_claim hg mem plain (Table.mem_claimList.mpr ⟨mem, hw⟩) (Table.fill_eq_ok_iff.mp hfill).2
  refine ⟨s, word?_firstSets hg hdescribes.firsts mem hs, fun hne => ?_, ?_⟩
  · exact hentry s (Prediction.mem_claims_of_ne_empty hg hdescribes mem plain hs hne)
  · rintro rfl f hf
    rw [← hdescribes.follows] at hf
    exact hentry f (Prediction.mem_claims_of_follow hg hdescribes mem plain hs hf)

theorem every_alternative_of_nested_is_predicted :
    ∃ firsts, nested.firstSets 1 = .ok firsts ∧
      ∀ p ∈ nested.productions, p.isEpsilon = false →
        ∃ s, firsts.word? p.id = some s ∧
          (s ≠ .empty → nestedTable.get? p.head s = some p.id) ∧
          (s = .empty →
            ∀ f ∈ (nested.followSets 1 firsts nested.nullable).get p.head, nestedTable.get? p.head f = some p.id) :=
  (every_alternative_is_predicted constructed_nested 1).2 nestedTable table_nested

end Grammar

end PredictiveParsing
