import PredictiveParsing.Proofs.Grammar.Derivation
import PredictiveParsing.Proofs.Grammar.Leftmost
import PredictiveParsing.Proofs.Nullable

/-! # What is nullable vanishes

The nullable nonterminals are exactly those from which the empty string is derived. Each sweep only adds heads whose
right-hand side vanishes by what is known already, and a leftmost derivation of the empty string replaces nothing but
nullable nonterminals, as the set at which the sweeps settle is closed. The sweeps settle because each but the last
one leaves fewer productions whose head is not known to be nullable. -/

namespace PredictiveParsing

open Std

namespace Nullable

/-- Epsilon markers do not keep a string from being nullable. -/
theorem all_filter_isEpsilon (known : ExtTreeSet Nonterminal) (x : List Symbol) :
    all known (x.filter (!·.isEpsilon)) = all known x := by
  rw [all, all, List.all_filter]
  congr 1
  funext symbol
  cases symbol with
  | terminal t => simp [Nullable.symbol, Symbol.isEpsilon]
  | nonterminal a => simp [Nullable.symbol, Symbol.isEpsilon]

end Nullable

namespace Grammar

variable {g : Grammar} {known : ExtTreeSet Nonterminal} {a : Nonterminal} {x : List Symbol} {p : Production}

/-- Every member of a set vanishes. -/
def Vanishing (g : Grammar) (known : ExtTreeSet Nonterminal) : Prop := ∀ a ∈ known, g.Derives [.nonterminal a] []

/-- A string vanishes if all its symbols are known to be nullable. -/
theorem Vanishing.derives_nil (h : g.Vanishing known) (plain : ∀ symbol ∈ x, symbol ≠ .terminal .epsilon)
    (all : Nullable.all known x = true) : g.Derives x [] := by
  induction x with
  | nil => exact .refl []
  | cons symbol rest ih =>
      obtain ⟨hsymbol, hrest⟩ := List.forall_mem_cons.mp plain
      rw [Nullable.all, List.all_cons, Bool.and_eq_true] at all
      have hvanishes : g.Derives [symbol] [] := by
        cases symbol with
        | terminal t =>
            have ht : t = .epsilon := Terminal.isEpsilon_iff.mp all.1
            exact absurd (congrArg Symbol.terminal ht) hsymbol
        | nonterminal a => exact h a (ExtTreeSet.contains_iff_mem.mp all.1)
      exact hvanishes.append (ih hrest all.2)

/-- A head that a visit adds vanishes because its right-hand side does. -/
theorem Vanishing.visit (hg : g.WellFormed) (h : g.Vanishing known) (mem : p ∈ g.productions) :
    g.Vanishing (Nullable.visit known p).1 := by
  by_cases hvisit : p.head ∉ known ∧ Nullable.all known p.symbols = true
  · rw [Nullable.visit, if_pos hvisit]
    have hbody : g.Derives p.body [] := by
      apply h.derives_nil fun symbol => (hg.wellFormed p mem).ne_epsilon
      cases hkind : p.isEpsilon with
      | true => rw [Production.body_of_isEpsilon hkind]; rfl
      | false => rw [Production.body_of_plain hkind]; exact hvisit.2
    intro a ha
    rcases ExtTreeSet.mem_insert.mp ha with heq | ha
    · rw [← LawfulEqOrd.eq_of_compare heq]
      exact (derives_body mem).trans hbody
    · exact h a ha
  · rw [Nullable.visit, if_neg hvisit]
    exact h

theorem vanishing_nullable (hg : g.WellFormed) : g.Vanishing g.nullable := by
  unfold nullable
  apply settle_induction (P := g.Vanishing)
  · intro a ha
    simp at ha
  · intro known h
    exact sweep_induction h fun p mem known h => h.visit hg mem

/-- Without epsilon markers a string of nullable symbols vanishes. -/
theorem derives_nil_of_all_nullable (hg : g.WellFormed) (plain : ∀ symbol ∈ x, symbol ≠ .terminal .epsilon)
    (all : Nullable.all g.nullable x = true) : g.Derives x [] :=
  (vanishing_nullable hg).derives_nil plain all

/-- A string that spells the empty word is made of nullable nonterminals. -/
theorem all_nullable_of_spells (hg : g.WellFormed) (h : g.Spells x []) : Nullable.all g.nullable x = true := by
  generalize hw : ([] : List Terminal) = w at h
  induction h with
  | nil => rfl
  | terminal => cases hw
  | @nonterminal p x w mem _ ih =>
      have hall := ih hw
      rw [Nullable.all_append, Bool.and_eq_true] at hall
      have hsymbols : Nullable.all g.nullable p.symbols = true := by
        cases hkind : p.isEpsilon with
        | true => rw [(hg.wellFormed p mem).symbols_of_isEpsilon hkind]; rfl
        | false => rw [← Production.body_of_plain hkind]; exact hall.1
      rw [Nullable.all, List.all_cons, Bool.and_eq_true]
      exact ⟨ExtTreeSet.contains_iff_mem.mpr (head_mem_nullable mem hsymbols), hall.2⟩

/-- The nullable nonterminals are those from which the empty string is derived. -/
theorem mem_nullable_iff (hg : g.WellFormed) : a ∈ g.nullable ↔ g.Derives [.nonterminal a] [] := by
  constructor
  · exact vanishing_nullable hg a
  · intro h
    have hall := all_nullable_of_spells hg (Spells.of_derives (w := []) h)
    simpa [Nullable.all, Nullable.symbol] using hall

/-- A string of symbols is nullable exactly if the empty string is derived from what it holds beside epsilon markers. -/
theorem all_nullable_iff (hg : g.WellFormed) :
    Nullable.all g.nullable x = true ↔ g.Derives (x.filter (!·.isEpsilon)) [] := by
  rw [← Nullable.all_filter_isEpsilon]
  constructor
  · intro h
    apply derives_nil_of_all_nullable hg _ h
    rintro _ hsymbol rfl
    exact absurd (List.mem_filter.mp hsymbol).2 (by decide)
  · intro h
    exact all_nullable_of_spells hg (Spells.of_derives (w := []) h)

/-- The sweeps come to an end, with the nonterminals from which the empty string is derived, and whenever a bound on
their number is enough, they end with these. A string of symbols is then found nullable exactly if the empty string is
derived from it, an epsilon marker in it standing for no symbol. -/
theorem nullable_iff_vanishes (constructed : g.Constructed) :
    settleWithin (sweep Nullable.visit · g.productions) (g.productions.length + 1) ∅ = some g.nullable ∧
    (∀ limit known, settleWithin (sweep Nullable.visit · g.productions) limit ∅ = some known → known = g.nullable) ∧
    (∀ a, a ∈ g.nullable ↔ g.Derives [.nonterminal a] []) ∧
    ∀ x, Nullable.all g.nullable x = true ↔ g.Derives (x.filter (!·.isEpsilon)) [] := by
  have hg := constructed.wellFormed
  refine ⟨?_, fun limit known h => ?_, fun a => mem_nullable_iff hg, fun x => all_nullable_iff hg⟩
  · have hrank : (Nullable.remaining g.productions ∅).length < g.productions.length + 1 :=
      Nat.lt_succ_of_le (List.length_filter_le _ _)
    exact settleWithin_of_rank_lt hrank
  · exact (settle_eq_of_settleWithin h).symm

theorem nested_nullable_iff_vanishes :
    settleWithin (sweep Nullable.visit · nested.productions) 4 ∅ = some nested.nullable ∧
      nested.Derives [.nonterminal ⟨0⟩] [] ∧ nested.Derives [.nonterminal ⟨1⟩, .nonterminal ⟨0⟩] [] ∧
      ¬nested.Derives [.nonterminal ⟨1⟩, .terminal ⟨2⟩] [] := by
  obtain ⟨hends, _, hnonterminals, hstrings⟩ := nullable_iff_vanishes constructed_nested
  refine ⟨hends, (hnonterminals ⟨0⟩).mp (by cbv), ?_, fun h => ?_⟩
  · exact (hstrings [.nonterminal ⟨1⟩, .terminal .epsilon, .nonterminal ⟨0⟩]).mp (by cbv)
  · have hall := (hstrings [.nonterminal ⟨1⟩, .terminal ⟨2⟩]).mpr h
    rw [show Nullable.all nested.nullable [.nonterminal ⟨1⟩, .terminal ⟨2⟩] = false by cbv] at hall
    cases hall

end Grammar

end PredictiveParsing
