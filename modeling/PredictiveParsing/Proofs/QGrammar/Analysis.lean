import PredictiveParsing.Proofs.Follow.Rules
import PredictiveParsing.Proofs.Grammar.Derivation
import PredictiveParsing.Proofs.Parser.Acceptance
import PredictiveParsing.Proofs.Table.Ownership

/-! # Grammars whose productions begin with a terminal

In a q-grammar a production either is an epsilon production or begins with a terminal, which is then all that it
contributes to FIRST for a lookahead of one terminal. FIRST and FOLLOW are therefore complete: whatever terminal can
begin what a string of symbols spells is found, and so is whatever can come behind a nonterminal in a derivation. If
moreover no terminal that begins an alternative of a nonterminal with an epsilon production follows it, the table has
an entry for each of them. -/

namespace PredictiveParsing

open Std

theorem Lookahead.at_one_cons {t : Terminal} (plain : t ≠ .epsilon ∧ t ≠ .endMarker) (v : List Terminal) :
    Lookahead.at 1 (t :: v) 0 = ⟨[t]⟩ := Lookahead.ofTerminals_token plain []

namespace Grammar

/-- Every production that is not an epsilon production begins with a terminal, and none holds the end marker. No
terminal that begins an alternative of a nonterminal with an epsilon production follows that nonterminal. -/
structure IsQGrammar (g : Grammar) (follows : LookaheadTable) : Prop where
  unended : ∀ p ∈ g.productions, .terminal .endMarker ∉ p.symbols
  begun : ∀ p ∈ g.productions, p.isEpsilon = false → ∃ t rest, p.symbols = .terminal t :: rest
  apart : ∀ p ∈ g.productions, p.isEpsilon = true → ∀ q ∈ g.productions, q.isEpsilon = false → q.head = p.head →
    ∀ t rest, q.symbols = .terminal t :: rest → ⟨[t]⟩ ∉ follows.get p.head

/-- Wherever a nonterminal stands in a string, it is followed by the first terminal of what the symbols behind it
spell, or by the end marker. -/
def FollowedIn (g : Grammar) (follows : LookaheadTable) (x : List Symbol) : Prop :=
  ∀ before a after v, x = before ++ .nonterminal a :: after → g.Spells after v →
    (∀ t ∈ v, t ≠ .epsilon ∧ t ≠ .endMarker) → Lookahead.at 1 v 0 ∈ follows.get a

namespace IsQGrammar

variable {g : Grammar} {found : Prediction} {table : Table} {p : Production} {a : Nonterminal} {t : Terminal}
  {v : List Terminal} {x y rest : List Symbol} {symbol : Symbol}

theorem exists_first {follows : LookaheadTable} (q : g.IsQGrammar follows) (mem : p ∈ g.productions)
    (plain : p.isEpsilon = false) :
    ∃ t rest, p.symbols = .terminal t :: rest ∧ p.body = .terminal t :: rest ∧ t ≠ .epsilon ∧ t ≠ .endMarker := by
  obtain ⟨t, rest, hsymbols⟩ := q.begun p mem plain
  refine ⟨t, rest, hsymbols, ?_, ?_, ?_⟩
  · rw [Production.body, plain, if_neg Bool.false_ne_true, hsymbols]
  · rintro rfl
    rw [Production.isEpsilon, hsymbols] at plain
    cases plain
  · rintro rfl
    exact q.unended p mem (hsymbols ▸ List.mem_cons_self)

section

variable (hfound : found.Describes g 1)
include hfound

/-- A production that begins with a terminal contributes that terminal. -/
theorem ofProduction_of_first (mem : p ∈ g.productions) (plain : p.isEpsilon = false)
    (first : p.symbols = .terminal t :: rest) (ht : t ≠ .epsilon) : First.ofProduction g 1 p = .ok ⟨[t]⟩ := by
  obtain ⟨⟨terminals⟩, hw⟩ := exists_ofProduction_of_firstSets hfound.firsts mem
  obtain ⟨hwithin, z, hread, hstop⟩ := First.reading_of_ofProduction plain hw
  rw [first] at hread
  cases hread with
  | stop =>
      rcases hstop with hcomplete | hnil
      · cases hcomplete
      · cases hnil
  | @terminal _ _ _ v _ _ =>
      have hlength : v = [] := by simpa [Lookahead.length] using hwithin.length_le
      rw [hw, hlength]
  | epsilon => exact absurd rfl ht

variable (q : g.IsQGrammar found.follows)
include q

/-- FIRST is complete: what a nonterminal spells begins with one of its words, and is empty if that is empty. -/
theorem mem_firsts_of_spells (h : g.Spells [.nonterminal a] v) : ⟨v.take 1⟩ ∈ found.firsts.get a := by
  obtain ⟨p, mem, hhead, hbody⟩ := h.exists_of_nonterminal
  refine (mem_get_firstSets hfound.firsts).mpr ⟨p, mem, hhead, ?_⟩
  rw [List.append_nil] at hbody
  cases hkind : p.isEpsilon with
  | true =>
      rw [Production.body, hkind, if_pos rfl] at hbody
      cases hbody
      rw [First.ofProduction, hkind]
      rfl
  | false =>
      obtain ⟨t, rest, hsymbols, hfirst, ht, _⟩ := q.exists_first mem hkind
      rw [hfirst] at hbody
      cases hbody
      exact ofProduction_of_first hfound mem hkind hsymbols ht

theorem mem_options_of_spells (h : g.Spells [symbol] v) (plain : ∀ t ∈ v, t ≠ .epsilon ∧ t ≠ .endMarker) :
    ⟨v.take 1⟩ ∈ Follow.options found.firsts found.nullable symbol := by
  cases symbol with
  | terminal t =>
      obtain rfl := h.eq_of_terminals (u := [t])
      rw [Follow.options, Lookahead.ofTerminals_token (plain t List.mem_cons_self)]
      exact List.mem_cons_self
  | nonterminal a =>
      exact List.mem_append_left _ (ExtTreeSet.mem_toList.mpr (mem_firsts_of_spells hfound q h))

/-- The FIRST words of a string are complete. -/
theorem continues_of_spells (h : g.Spells x v) (plain : ∀ t ∈ v, t ≠ .epsilon ∧ t ≠ .endMarker)
    (inhabited : ∀ symbol ∈ x, Follow.options found.firsts found.nullable symbol ≠ []) :
    Follow.Continues found.firsts found.nullable 1 .empty x ⟨v.take 1⟩ := by
  induction x generalizing v with
  | nil =>
      cases h
      exact .stop _
  | cons symbol rest ih =>
      obtain ⟨u, v, rfl, hsymbol, hrest⟩ := Spells.exists_of_append (x := [symbol]) h
      obtain ⟨hu, hv⟩ := List.forall_mem_append.mp plain
      have hkind : symbol.isEpsilon = false := by
        rw [Bool.eq_false_iff, ne_eq, Symbol.isEpsilon_iff]
        rintro rfl
        obtain rfl := hsymbol.eq_of_terminals (u := [.epsilon])
        exact (hu .epsilon List.mem_cons_self).1 rfl
      refine .step hkind (mem_options_of_spells hfound q hsymbol hu) ?_
      cases u with
      | nil => exact ih hrest hv (List.forall_mem_cons.mp inhabited).2
      | cons t u => exact .of_isComplete (List.forall_mem_cons.mp inhabited).2 rfl

end

section

variable (hg : g.WellFormed) (closed : g.Closed) (hfound : found.Describes g 1) (q : g.IsQGrammar found.follows)
include hg closed hfound q

/-- Inside a production a nonterminal is followed by what begins the rest of the production, or, if that spells the
empty word, by what follows the head. -/
theorem mem_follows_of_occurs (mem : p ∈ g.productions) {before after : List Symbol} {u : List Terminal}
    (occurs : p.symbols = before ++ .nonterminal a :: after) (hu : g.Spells after u)
    (plain : ∀ t ∈ u ++ v, t ≠ .epsilon ∧ t ≠ .endMarker) (behind : Lookahead.at 1 v 0 ∈ found.follows.get p.head) :
    Lookahead.at 1 (u ++ v) 0 ∈ found.follows.get a := by
  obtain ⟨huplain, _⟩ := List.forall_mem_append.mp plain
  have hinhabited : ∀ symbol ∈ after, Follow.options found.firsts found.nullable symbol ≠ [] :=
    Follow.options_ne_nil_of_occurs hg closed hfound.firsts mem occurs
  have hword := (Follow.mem_firstWords_iff hinhabited).mpr (continues_of_spells hfound q hu huplain hinhabited)
  have hwithin := Prediction.within_of_mem_follows hfound behind
  rw [hfound.follows, mem_followSets_iff] at behind ⊢
  rw [hfound.nullable] at hword
  cases u with
  | nil =>
      have hcontinued := Follow.Follows.continued mem occurs hword rfl behind
      rwa [show (⟨[].take 1⟩ : Lookahead) = .empty from rfl, Lookahead.empty_concat hfound.pos hwithin] at hcontinued
  | cons t u =>
      rw [List.cons_append, Lookahead.at_one_cons (huplain t List.mem_cons_self)]
      exact .complete mem occurs hword rfl

theorem followedIn_of_rewrites (h : g.FollowedIn found.follows x) (step : g.Rewrites x y) :
    g.FollowedIn found.follows y := by
  obtain ⟨mem, front, back⟩ := step
  rename_i p
  intro before a after v hy hv plain
  rcases append_eq_append_cons_cases hy with ⟨c, rfl, rfl⟩ | ⟨c, rfl, hback⟩
  · -- The nonterminal stands in front of the one that is replaced.
    exact h before a _ v (by simp) (.of_replace mem hv) plain
  rcases append_eq_append_cons_cases hback with ⟨d, hbody, rfl⟩ | ⟨d, rfl, rfl⟩
  · -- It belongs to the production.
    obtain ⟨u, v, rfl, hu, hv⟩ := hv.exists_of_append
    have hplain : p.isEpsilon = false := by
      by_contra hepsilon
      rw [Production.body, if_pos (by simpa using hepsilon)] at hbody
      simp at hbody
    rw [Production.body, hplain, if_neg Bool.false_ne_true] at hbody
    have hbehind := h front p.head back v rfl hv (List.forall_mem_append.mp plain).2
    exact mem_follows_of_occurs hg closed hfound q mem hbody hu plain hbehind
  · -- It stands behind the one that is replaced.
    exact h (front ++ .nonterminal p.head :: d) a after v (by simp) hv plain

/-- FOLLOW is complete. -/
theorem followedIn_of_derives (h : g.Derives [.nonterminal g.start] x) : g.FollowedIn found.follows x := by
  have hstart : g.FollowedIn found.follows [.nonterminal g.start] := by
    intro before a after v hx hv _
    rcases List.cons_eq_append_iff.mp hx with ⟨rfl, heq⟩ | ⟨_, _, hnil⟩
    · cases heq
      cases hv
      rw [hfound.follows, mem_followSets_iff]
      exact .start
    · simp at hnil
  generalize [Symbol.nonterminal g.start] = z at h hstart
  induction h with
  | refl => exact hstart
  | head first _ ih => exact ih (followedIn_of_rewrites hg closed hfound q hstart first)

end

section

variable (hg : g.WellFormed) (hfound : g.prediction 1 = .ok found) (htable : g.table 1 = .ok table)
include hg hfound htable

/-- The terminal with which a production begins selects it. -/
theorem get?_of_first (mem : p ∈ g.productions) (plain : p.isEpsilon = false)
    (first : p.symbols = .terminal t :: rest) (ht : t ≠ .epsilon) : table.get? p.head ⟨[t]⟩ = some p.id := by
  have hdescribes := Prediction.describes_of_prediction hfound
  have hword := ofProduction_of_first hdescribes mem plain first ht
  have hclaim := Prediction.mem_claims_of_ne_empty hg hdescribes mem plain hword (by simp [Lookahead.empty])
  exact get?_table_of_plain_claim hg hfound htable mem plain ((Prediction.mem_claims_iff hdescribes).mp hclaim)

variable (q : g.IsQGrammar found.follows)
include q

/-- Whatever follows the head of an epsilon production selects it. -/
theorem get?_of_follow (mem : p ∈ g.productions) (epsilon : p.isEpsilon = true)
    (follow : ⟨[t]⟩ ∈ found.follows.get p.head) : table.get? p.head ⟨[t]⟩ = some p.id := by
  refine get?_table_of_unrivalled_claim hg hfound htable mem (Or.inr ⟨Or.inl epsilon, follow⟩) ?_
  intro r hr hhead hclaim
  by_contra hkind
  have hplain : r.isEpsilon = false := Bool.eq_false_iff.mpr hkind
  obtain ⟨s, later, hsymbols, _, hs, _⟩ := q.exists_first hr hplain
  rcases hclaim with hfirst | hfollow
  · have hgenerates := hfirst.generates
    rw [hsymbols, Prediction.generates, if_neg (mt Terminal.isEpsilon_iff.mp hs), Bool.and_eq_true,
      beq_iff_eq] at hgenerates
    rw [← hgenerates.1] at follow
    exact q.apart p mem epsilon r hr hplain hhead s later hsymbols follow
  · obtain ⟨_, _, hall⟩ := hfollow.vanishes.resolve_left hkind
    rw [hsymbols, Nullable.all, List.all_cons, Bool.and_eq_true] at hall
    exact hs (Terminal.isEpsilon_iff.mp hall.1)

/-- In a derivation of a word the table holds the production by which the word goes on. -/
theorem get?_of_spells (closed : g.Closed) {before : List Symbol} (mem : p ∈ g.productions)
    (derives : g.Derives [.nonterminal g.start] (before ++ .nonterminal p.head :: rest))
    (spells : g.Spells (p.body ++ rest) v) (plain : ∀ t ∈ v, t ≠ .epsilon ∧ t ≠ .endMarker) :
    ∃ t, Lookahead.at 1 v 0 = ⟨[t]⟩ ∧ table.get? p.head ⟨[t]⟩ = some p.id := by
  have hdescribes := Prediction.describes_of_prediction hfound
  cases hkind : p.isEpsilon with
  | true =>
      rw [Production.body, hkind, if_pos rfl] at spells
      have hfollow := followedIn_of_derives hg closed hdescribes q derives before p.head rest v rfl spells plain
      have hsingle : ∃ t, Lookahead.at 1 v 0 = ⟨[t]⟩ := by
        cases v with
        | nil => exact ⟨.endMarker, rfl⟩
        | cons t v => exact ⟨t, Lookahead.at_one_cons (plain t List.mem_cons_self) v⟩
      obtain ⟨t, ht⟩ := hsingle
      rw [ht] at hfollow
      exact ⟨t, ht, get?_of_follow hg hfound htable q mem hkind hfollow⟩
  | false =>
      obtain ⟨t, later, hsymbols, hbody, ht, _⟩ := q.exists_first mem hkind
      rw [hbody] at spells
      cases spells with
      | terminal =>
          refine ⟨t, Lookahead.at_one_cons (plain t List.mem_cons_self) _, ?_⟩
          exact get?_of_first hg hfound htable mem hkind hsymbols ht

end

end IsQGrammar

end Grammar

end PredictiveParsing
