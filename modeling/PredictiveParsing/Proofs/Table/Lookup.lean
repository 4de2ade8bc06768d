import PredictiveParsing.Proofs.Table.Ownership

/-! # What is looked up in a table

A lookup finds the entry of the longest beginning of the window that has one. Which words have an entry for a
nonterminal does not depend on how the claims are resolved: they are the words of its FIRST set and, if the empty
word is one of these, the words that follow it. So what is looked up can be told from the analyses alone. -/

namespace PredictiveParsing

open Std

namespace Lookahead

variable {w v window : Lookahead}

/-- A word that is not empty and with which a window begins. -/
structure Begins (w window : Lookahead) : Prop where
  ne_empty : w ≠ .empty
  isPrefix : w.terminals <+: window.terminals

theorem begins_iff : w.Begins window ↔ ∃ n < window.length, w = window.truncate (n + 1) := by
  constructor
  · rintro ⟨hne, hprefix⟩
    have hpos : 0 < w.length := by
      rw [length, List.length_pos_iff]
      exact fun hnil => hne (by cases w; exact congrArg mk hnil)
    have hle : w.length ≤ window.length := hprefix.length_le
    refine ⟨w.length - 1, by omega, ?_⟩
    have hlength : w.length - 1 + 1 = w.terminals.length := Nat.sub_add_cancel hpos
    rw [truncate, hlength, ← List.prefix_iff_eq_take.mp hprefix]
  · rintro ⟨n, hn, rfl⟩
    refine ⟨fun hempty => ?_, List.take_prefix _ _⟩
    have hlength : (window.truncate (n + 1)).length = 0 := by rw [hempty]; rfl
    rw [length_truncate] at hlength
    omega

end Lookahead

namespace Table

variable {table : Table} {a : Nonterminal} {window w : Lookahead} {id : ProductionId}

theorem lookupUpTo_eq_none_iff {n : Nat} :
    table.lookupUpTo a window n = none ↔ ∀ m < n, table.get? a (window.truncate (m + 1)) = none := by
  induction n with
  | zero => simp [lookupUpTo]
  | succ n ih => rw [lookupUpTo, Option.or_eq_none_iff, ih, Nat.forall_lt_succ_right, and_comm]

theorem lookupUpTo_eq_some_iff {n : Nat} :
    table.lookupUpTo a window n = some id ↔ ∃ m < n, table.get? a (window.truncate (m + 1)) = some id ∧
      ∀ l < n, m < l → table.get? a (window.truncate (l + 1)) = none := by
  induction n with
  | zero => simp [lookupUpTo]
  | succ n ih =>
      rw [lookupUpTo, Option.or_eq_some_iff, ih]
      constructor
      · rintro (hfull | ⟨hnone, m, hm, hentry, hlonger⟩)
        · exact ⟨n, Nat.lt_succ_self n, hfull, fun l hl hlt => by omega⟩
        · refine ⟨m, Nat.lt_succ_of_lt hm, hentry, fun l hl hlt => ?_⟩
          rcases Nat.lt_succ_iff_lt_or_eq.mp hl with hl | rfl
          · exact hlonger l hl hlt
          · exact hnone
      · rintro ⟨m, hm, hentry, hlonger⟩
        rcases Nat.lt_succ_iff_lt_or_eq.mp hm with hm | rfl
        · exact Or.inr ⟨hlonger n (Nat.lt_succ_self n) hm, m, hm, hentry,
            fun l hl => hlonger l (Nat.lt_succ_of_lt hl)⟩
        · exact Or.inl hentry

theorem lookup_eq_none_iff : table.lookup a window = none ↔ ∀ w, w.Begins window → table.get? a w = none := by
  rw [lookup, lookupUpTo_eq_none_iff]
  simp only [Lookahead.begins_iff, forall_exists_index, and_imp]
  constructor
  · rintro h _ n hn rfl
    exact h n hn
  · exact fun h n hn => h _ n hn rfl

/-- What is looked up is the entry of the longest beginning of the window that has one. -/
theorem lookup_eq_some_iff :
    table.lookup a window = some id ↔ ∃ w, w.Begins window ∧ table.get? a w = some id ∧
      ∀ v, v.Begins window → w.length < v.length → table.get? a v = none := by
  rw [lookup, lookupUpTo_eq_some_iff]
  have hlength : ∀ n < window.length, (window.truncate (n + 1)).length = n + 1 := by
    intro n hn
    rw [Lookahead.length_truncate]
    omega
  constructor
  · rintro ⟨n, hn, hentry, hlonger⟩
    refine ⟨_, Lookahead.begins_iff.mpr ⟨n, hn, rfl⟩, hentry, fun v hv hlt => ?_⟩
    obtain ⟨m, hm, rfl⟩ := Lookahead.begins_iff.mp hv
    rw [hlength n hn, hlength m hm] at hlt
    exact hlonger m hm (by omega)
  · rintro ⟨w, hw, hentry, hlonger⟩
    obtain ⟨n, hn, rfl⟩ := Lookahead.begins_iff.mp hw
    refine ⟨n, hn, hentry, fun m hm hlt => hlonger _ (Lookahead.begins_iff.mpr ⟨m, hm, rfl⟩) ?_⟩
    rw [hlength n hn, hlength m hm]
    omega

end Table

namespace Prediction

variable {g : Grammar} {k : Nat} {found : Prediction} {a : Nonterminal} {w : Lookahead}

/-- The words by which a nonterminal is known: the FIRST words that are not empty, and what follows it if the empty
word is a FIRST word too. -/
def Expects (found : Prediction) (a : Nonterminal) (w : Lookahead) : Prop :=
  (w ≠ .empty ∧ w ∈ found.firsts.get a) ∨ (Lookahead.empty ∈ found.firsts.get a ∧ w ∈ found.follows.get a)

/-- The longest beginning of a window by which a nonterminal is known. -/
structure ExpectsLongest (found : Prediction) (a : Nonterminal) (window w : Lookahead) : Prop where
  begins : w.Begins window
  expects : found.Expects a w
  longest : ∀ v, v.Begins window → found.Expects a v → v.length ≤ w.length

/-- The alternatives of a nonterminal claim just the words by which it is known. -/
theorem exists_claims_iff_expects (hg : g.WellFormed) (hfound : found.Describes g k) :
    (∃ p ∈ g.productions, p.head = a ∧ found.Claims p w) ↔ found.Expects a w := by
  constructor
  · rintro ⟨p, mem, rfl, ⟨_, hne, hfirst, _⟩ | ⟨hvanishes, hfollow⟩⟩
    · exact Or.inl ⟨hne, hfirst⟩
    · refine Or.inr ⟨?_, hfollow⟩
      rcases hvanishes with hepsilon | ⟨_, hempty, _⟩
      · have hword : First.ofProduction g k p = .ok .empty := by rw [First.ofProduction, if_pos hepsilon]
        exact (Grammar.mem_get_firstSets hfound.firsts).mpr ⟨p, mem, rfl, hword⟩
      · exact hempty
  · -- A FIRST word is the word of an alternative, which claims it, or what follows if it is empty.
    rintro (⟨hne, hfirst⟩ | ⟨hempty, hfollow⟩)
    · obtain ⟨p, mem, rfl, hword⟩ := (Grammar.mem_get_firstSets hfound.firsts).mp hfirst
      exact ⟨p, mem, rfl, claims_of_word hg hfound mem hword hne⟩
    · obtain ⟨p, mem, rfl, hword⟩ := (Grammar.mem_get_firstSets hfound.firsts).mp hempty
      exact ⟨p, mem, rfl, claims_of_empty_word hg hfound mem hword hfollow⟩

end Prediction

namespace Grammar

variable {g : Grammar} {k : Nat} {found : Prediction} {table : Table} {a : Nonterminal} {w window : Lookahead}
  {id : ProductionId} (hg : g.WellFormed) (hfound : g.prediction k = .ok found) (htable : g.table k = .ok table)
include hg hfound htable

/-- A table has an entry for just the words by which a nonterminal is known. -/
theorem exists_get?_table_iff : (∃ id, table.get? a w = some id) ↔ found.Expects a w := by
  rw [(ownedByClaims_of_table hg hfound htable).keys a w]
  exact Prediction.exists_claims_iff_expects hg (Prediction.describes_of_prediction hfound)

theorem get?_table_eq_none_iff : table.get? a w = none ↔ ¬found.Expects a w := by
  rw [← exists_get?_table_iff hg hfound htable, Option.eq_none_iff_forall_ne_some, not_exists]

theorem lookup_table_eq_none_iff : table.lookup a window = none ↔ ∀ w, w.Begins window → ¬found.Expects a w := by
  simp only [Table.lookup_eq_none_iff, get?_table_eq_none_iff hg hfound htable]

theorem lookup_table_eq_some_iff :
    table.lookup a window = some id ↔ ∃ w, found.ExpectsLongest a window w ∧ table.get? a w = some id := by
  simp only [Table.lookup_eq_some_iff, get?_table_eq_none_iff hg hfound htable]
  constructor
  · rintro ⟨w, hw, hentry, hlonger⟩
    have hexpects := (exists_get?_table_iff hg hfound htable).mp ⟨id, hentry⟩
    refine ⟨w, ⟨hw, hexpects, fun v hv hexpected => ?_⟩, hentry⟩
    by_contra hlt
    exact hlonger v hv (Nat.lt_of_not_le hlt) hexpected
  · rintro ⟨w, ⟨hw, _, hlongest⟩, hentry⟩
    refine ⟨w, hw, hentry, fun v hv hlt hexpected => ?_⟩
    exact absurd (hlongest v hv hexpected) (Nat.not_le_of_lt hlt)

end Grammar

end PredictiveParsing
