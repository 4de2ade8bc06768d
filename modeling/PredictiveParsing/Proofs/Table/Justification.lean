import PredictiveParsing.Proofs.First.Derivation
import PredictiveParsing.Proofs.Nullable.Derivation
import PredictiveParsing.Proofs.Table.Ownership

/-! # Entries are justified by derivations

What the FIRST words of its nonterminals let a right-hand side generate is derived from it: a FIRST word that is
followed by a part of the word is not complete, hence all that its nonterminal puts there, and one that reaches to the
end of the word either is exact too or need not be. So a production that claims a word derives it, or vanishes in front
of it. -/

namespace PredictiveParsing

open Std

namespace Prediction

variable {g : Grammar} {k : Nat} {found : Prediction} {complete : Bool} {a : Nonterminal} {x rest : List Symbol}
  {v : List Terminal} {p : Production} {w : Lookahead}

theorem derivesUpTo_nil (hg : g.WellFormed) (hfound : found.Describes g k)
    (plain : ∀ symbol ∈ x, symbol ≠ .terminal .epsilon) (h : found.generates complete x [] = true) :
    g.DerivesUpTo complete x [] := by
  rw [generates_nil, Bool.or_eq_true, hfound.nullable] at h
  rcases h with hcomplete | hall
  · rw [hcomplete]
    exact ⟨x, .refl x, Or.inl rfl⟩
  · exact .of_derives (Grammar.derives_nil_of_all_nullable hg plain hall)

/-- A nonterminal in front derives its part of the word if the symbols behind it derive theirs. -/
theorem derivesUpTo_nonterminal (hg : g.WellFormed) (hfound : found.Describes g k)
    (plain : ∀ symbol ∈ rest, symbol ≠ .terminal .epsilon) (within : Lookahead.Within k ⟨v⟩)
    (exact : complete = true ∨ Lookahead.isComplete ⟨v⟩ k = false) (hne : v ≠ [])
    (later : ∀ {v}, Lookahead.Within k ⟨v⟩ → (complete = true ∨ Lookahead.isComplete ⟨v⟩ k = false) →
      found.generates complete rest v = true → g.DerivesUpTo complete rest v)
    (h : found.generates complete (.nonterminal a :: rest) v = true) :
    g.DerivesUpTo complete (.nonterminal a :: rest) v := by
  rcases generates_nonterminal_cases hne h with
    ⟨hnullable, hrest⟩ | ⟨w, hw, _, ⟨behind, hbehind, rfl, hrest⟩ | ⟨⟨t, ht⟩, hend⟩⟩
  · rw [hfound.nullable] at hnullable
    have hvanishes := Grammar.vanishing_nullable hg a (ExtTreeSet.contains_iff_mem.mp hnullable)
    exact Grammar.DerivesUpTo.append (u := []) hvanishes (later within exact hrest)
  · have hopen : w.isComplete k = false := by
      rw [Bool.eq_false_iff]
      exact fun hcomplete => hbehind (Lookahead.eq_nil_of_isComplete hcomplete within)
    have hfirst := (Grammar.beginsWith_of_mem_firsts hg hfound.firsts hw).derives_exactly hopen
    exact Grammar.DerivesUpTo.append hfirst (later within.right (exact.imp_right Lookahead.isComplete_right) hrest)
  · have hbegins := Grammar.beginsWith_of_mem_firsts hg hfound.firsts hw
    cases hkind : complete with
    | true =>
        obtain ⟨_, z, hz, _⟩ := hbegins
        refine ⟨t.map .terminal ++ (z ++ rest), ?_, Or.inl rfl⟩
        have hfirst := hz.append_right rest
        rw [← ht] at hfirst
        simpa using hfirst
    | false =>
        rw [hkind] at exact hend
        obtain ⟨hword, hall⟩ := hend.resolve_left Bool.false_ne_true
        obtain rfl : w = ⟨v⟩ := congrArg Lookahead.mk hword
        rw [hfound.nullable] at hall
        have hfirst := hbegins.derives_exactly (exact.resolve_left Bool.false_ne_true)
        have hrest : g.DerivesUpTo false rest [] := .of_derives (Grammar.derives_nil_of_all_nullable hg plain hall)
        rw [← List.append_nil v]
        exact Grammar.DerivesUpTo.append hfirst hrest

/-- What a string generates it derives, exactly if that is asked for and the word is not complete. -/
theorem derivesUpTo_of_generates (hg : g.WellFormed) (hfound : found.Describes g k)
    (plain : ∀ symbol ∈ x, symbol ≠ .terminal .epsilon) (within : Lookahead.Within k ⟨v⟩)
    (exact : complete = true ∨ Lookahead.isComplete ⟨v⟩ k = false) (h : found.generates complete x v = true) :
    g.DerivesUpTo complete x v := by
  induction x generalizing v with
  | nil =>
      cases v with
      | nil => exact derivesUpTo_nil hg hfound plain h
      | cons => rw [generates] at h; cases h
  | cons symbol rest ih =>
      obtain ⟨hsymbol, hrest⟩ := List.forall_mem_cons.mp plain
      cases v with
      | nil => exact derivesUpTo_nil hg hfound plain h
      | cons s v =>
          cases symbol with
          | terminal t =>
              have ht : ¬t.isEpsilon = true := fun hepsilon => hsymbol (congrArg _ (Terminal.isEpsilon_iff.mp hepsilon))
              rw [generates, if_neg ht, Bool.and_eq_true, beq_iff_eq] at h
              obtain ⟨rfl, h⟩ := h
              have hlater := ih hrest (Lookahead.Within.right (u := [t]) within)
                (exact.imp_right (Lookahead.isComplete_right (u := [t]))) h
              exact Grammar.DerivesUpTo.append (x := [.terminal t]) (u := [t]) (.refl _) hlater
          | nonterminal a =>
              exact derivesUpTo_nonterminal hg hfound hrest within exact (List.cons_ne_nil s v)
                (fun within exact => ih hrest within exact) h

/-- The body of a production begins with every FIRST word that the production claims. -/
theorem ClaimsFirst.beginsWith (hg : g.WellFormed) (hfound : found.Describes g k) (mem : p ∈ g.productions)
    (h : found.ClaimsFirst p w) : g.BeginsWith k p.body w := by
  obtain ⟨hplain, _, hmem, hgenerates⟩ := h
  have hwithin := Grammar.within_of_mem_firstSets hfound.firsts hmem
  rw [hfound.bound, ← Production.body_of_plain hplain] at hgenerates
  refine ⟨hwithin, derivesUpTo_of_generates hg hfound (fun _ => (hg.wellFormed p mem).ne_epsilon) hwithin ?_ hgenerates⟩
  cases w.isComplete k with
  | true => exact Or.inl rfl
  | false => exact Or.inr rfl

/-- A production that claims what follows its head vanishes. -/
theorem ClaimsFollow.derives_nil (hg : g.WellFormed) (hfound : found.Describes g k) (mem : p ∈ g.productions)
    (h : found.ClaimsFollow p w) : g.Derives p.body [] := by
  rcases h.vanishes with hepsilon | ⟨hplain, _, hall⟩
  · rw [Production.body_of_isEpsilon hepsilon]
    exact .refl []
  · rw [hfound.nullable, ← Production.body_of_plain hplain] at hall
    exact Grammar.derives_nil_of_all_nullable hg (fun _ => (hg.wellFormed p mem).ne_epsilon) hall

end Prediction

namespace Grammar

variable {g : Grammar} {k : Nat} {table : Table}

/-- The production of every entry is an alternative of its nonterminal whose body begins with the word of the entry,
or derives the empty string where the word follows the nonterminal. -/
theorem every_entry_is_justified (constructed : g.Constructed) (htable : g.table k = .ok table) :
    ∃ found, g.prediction k = .ok found ∧ ∀ a w id, table.get? a w = some id →
      ∃ p ∈ g.alternatives a, p.id = id ∧
        (g.BeginsWith k p.body w ∨ (g.Derives p.body [] ∧ w ∈ found.follows.get a)) := by
  have hg := constructed.wellFormed
  obtain ⟨found, hfound, _⟩ := table_eq_ok_iff.mp htable
  have hdescribes := Prediction.describes_of_prediction hfound
  refine ⟨found, hfound, fun a w id hentry => ?_⟩
  obtain ⟨p, mem, hid, rfl, hclaim⟩ := exists_claim_of_get?_table hg hfound htable hentry
  refine ⟨p, hg.mem_alternatives_iff.mpr ⟨mem, rfl⟩, hid, ?_⟩
  rcases hclaim with hfirst | hfollow
  · exact Or.inl (hfirst.beginsWith hg hdescribes mem)
  · exact Or.inr ⟨hfollow.derives_nil hg hdescribes mem, hfollow.mem⟩

theorem entry_of_nested_is_justified :
    ∃ found, nested.prediction 1 = .ok found ∧ ∃ p ∈ nested.alternatives ⟨0⟩, p.id = ⟨1⟩ ∧
      (nested.BeginsWith 1 p.body ⟨[⟨3⟩]⟩ ∨ (nested.Derives p.body [] ∧ ⟨[⟨3⟩]⟩ ∈ found.follows.get ⟨0⟩)) := by
  obtain ⟨found, hfound, hentries⟩ := every_entry_is_justified constructed_nested table_nested
  have hentry : nestedTable.get? ⟨0⟩ ⟨[⟨3⟩]⟩ = some ⟨1⟩ := by decide
  exact ⟨found, hfound, hentries ⟨0⟩ ⟨[⟨3⟩]⟩ ⟨1⟩ hentry⟩

end Grammar

end PredictiveParsing
