import PredictiveParsing.Proofs.Follow.Continuation
import PredictiveParsing.Proofs.Table.Existence

/-! # Generating and continuing words

A table asks whether a string of symbols generates a word and looks for a way to divide the word among the symbols;
FOLLOW goes the other way and continues the empty word through the string by every word that its symbols offer. The
two agree: where a part of the word has been generated, the rest of the string generates what is left of it exactly
if it can continue the part to the whole word. That a search may stop within a FIRST word and a continuation may cut
one off is the same thing, as both happen just where the word is complete. -/

namespace PredictiveParsing

open Std

namespace Lookahead

variable {k : Nat} {w : Lookahead} {u v : List Terminal}

/-- A word that begins with what is missing of a complete word adds just that, and so does what is missing itself. -/
theorem concat_eq_of_prefix (within : Within k ⟨u ++ v⟩) (hopen : isComplete ⟨u⟩ k = false) (wellFormed : w.WellFormed)
    (hle : v <+: w.terminals) (stop : isComplete ⟨u ++ v⟩ k = true ∨ w.terminals = v) :
    concat ⟨u⟩ w k = ⟨u ++ v⟩ := by
  have hconcat := within.left.concat wellFormed
  rw [concat, hopen, if_neg Bool.false_ne_true] at hconcat ⊢
  have hlength := within.length_le
  rw [length, List.length_append] at hlength
  have htake : v <+: w.terminals.take (k - length ⟨u⟩) :=
    List.prefix_take_iff.mpr ⟨hle, Nat.le_sub_of_add_le' hlength⟩
  obtain ⟨t, ht⟩ := htake
  refine congrArg mk (congrArg (u ++ ·) ?_)
  rcases stop with hcomplete | hexact
  · rw [← ht, ← List.append_assoc] at hconcat
    rw [← ht, eq_nil_of_isComplete hcomplete hconcat, List.append_nil]
  · rw [hexact]
    exact List.take_of_length_le (Nat.le_sub_of_add_le' hlength)

end Lookahead

namespace Follow

variable {firsts : FirstSets} {nullable : ExtTreeSet Nonterminal} {k : Nat} {u w : Lookahead} {t : Terminal}
  {a : Nonterminal} {rest : List Symbol}

/-- Continuing a word keeps what it has. -/
theorem Continues.isPrefix {symbols : List Symbol} (h : Continues firsts nullable k u symbols w) :
    u.terminals <+: w.terminals := by
  induction h with
  | stop u => exact List.prefix_rfl
  | epsilon _ ih => exact ih
  | @step u v w symbol rest plain option later ih =>
      obtain ⟨s, _, hconcat, _, _⟩ := Lookahead.exists_concat_eq u v k
      rw [hconcat] at ih
      exact (List.prefix_append _ s).trans ih

theorem continues_epsilon_iff :
    Continues firsts nullable k u (.terminal .epsilon :: rest) w ↔ Continues firsts nullable k u rest w := by
  constructor
  · intro h
    cases h with
    | epsilon later => exact later
    | step plain => cases plain
  · exact .epsilon

theorem continues_terminal_iff (plain : t ≠ .epsilon) (hopen : u.isComplete k = false) :
    Continues firsts nullable k u (.terminal t :: rest) w ↔
      Continues firsts nullable k ⟨u.terminals ++ [t]⟩ rest w := by
  have hconcat : u.concat (.ofTerminals [t]) k = ⟨u.terminals ++ [t]⟩ := by
    have hlength := (Lookahead.isComplete_eq_false_iff.mp hopen).1
    rw [Lookahead.concat, hopen, if_neg Bool.false_ne_true, Lookahead.ofTerminals_singleton plain]
    exact congrArg (Lookahead.mk <| u.terminals ++ ·) (List.take_of_length_le (Nat.sub_pos_of_lt hlength))
  have hkind : Symbol.isEpsilon (.terminal t) = false := by
    rw [Bool.eq_false_iff, ne_eq, Symbol.isEpsilon_iff, Symbol.terminal.injEq]
    exact plain
  constructor
  · intro h
    cases h with
    | epsilon => exact absurd rfl plain
    | step _ option later =>
        rw [List.mem_singleton.mp option, hconcat] at later
        exact later
  · intro h
    refine .step hkind (List.mem_singleton_self _) ?_
    rwa [hconcat]

theorem continues_nonterminal_iff :
    Continues firsts nullable k u (.nonterminal a :: rest) w ↔
      ∃ v ∈ options firsts nullable (.nonterminal a), Continues firsts nullable k (u.concat v k) rest w := by
  constructor
  · intro h
    cases h with
    | step _ option later => exact ⟨_, option, later⟩
  · rintro ⟨v, option, later⟩
    exact .step rfl option later

end Follow

namespace Grammar

variable {g : Grammar} {k : Nat} {firsts : FirstSets} {a : Nonterminal}

/-- A nonterminal is nullable if the empty word is a FIRST word of it. -/
theorem mem_nullable_of_empty_mem_firsts (hg : g.WellFormed) (pos : 0 < k) (hfirsts : g.firstSets k = .ok firsts)
    (h : Lookahead.empty ∈ firsts.get a) : a ∈ g.nullable := by
  obtain ⟨p, mem, rfl, hword⟩ := (mem_get_firstSets hfirsts).mp h
  apply head_mem_nullable mem
  cases hkind : p.isEpsilon with
  | true =>
      rw [(hg.wellFormed p mem).symbols_of_isEpsilon hkind]
      rfl
  | false =>
      obtain ⟨_, z, hread, hstop⟩ := First.reading_of_ofProduction hkind hword
      rw [Lookahead.isComplete_empty pos] at hstop
      obtain rfl := hstop.resolve_left Bool.false_ne_true
      exact all_nullable_of_reading hg hread

end Grammar

namespace Prediction

variable {g : Grammar} {k : Nat} {found : Prediction} {complete : Bool} {a : Nonterminal} {rest : List Symbol}
  {u v : List Terminal} {t : Terminal}

theorem generates_epsilon : found.generates complete (.terminal .epsilon :: rest) v = found.generates complete rest v := by
  cases v with
  | nil => rw [generates_nil, generates_nil, Nullable.all, List.all_cons]; rfl
  | cons s v => rw [generates, if_pos Terminal.isEpsilon_epsilon]

theorem generates_terminal_iff (plain : t ≠ .epsilon) (stop : complete = false ∨ v ≠ []) :
    found.generates complete (.terminal t :: rest) v = true ↔
      ∃ later, v = t :: later ∧ found.generates complete rest later = true := by
  have hkind : t.isEpsilon = false := Bool.eq_false_iff.mpr (mt Terminal.isEpsilon_iff.mp plain)
  cases v with
  | nil =>
      rw [generates_nil, stop.resolve_right (not_not_intro rfl), Nullable.all, List.all_cons, Nullable.symbol, hkind]
      simp
  | cons s v =>
      rw [generates, hkind, if_neg Bool.false_ne_true, Bool.and_eq_true, beq_iff_eq]
      constructor
      · rintro ⟨rfl, h⟩
        exact ⟨v, rfl, h⟩
      · rintro ⟨_, heq, h⟩
        obtain ⟨rfl, rfl⟩ := List.cons.inj heq
        exact ⟨rfl, h⟩

/-- A nullable nonterminal leaves the word to the symbols behind it. -/
theorem generates_of_nullable (hnullable : a ∈ found.nullable) (h : found.generates complete rest v = true) :
    found.generates complete (.nonterminal a :: rest) v = true := by
  cases v with
  | nil =>
      rw [generates_nil, Bool.or_eq_true] at h ⊢
      refine h.imp_right fun hall => ?_
      rw [Nullable.all, List.all_cons, Bool.and_eq_true]
      exact ⟨ExtTreeSet.contains_iff_mem.mpr hnullable, hall⟩
  | cons s v =>
      rw [generates, Bool.or_eq_true, Bool.and_eq_true]
      exact Or.inl ⟨ExtTreeSet.contains_iff_mem.mpr hnullable, h⟩

section

variable (hg : g.WellFormed) (hfound : found.Describes g k)
include hfound

/-- What a nonterminal in front of a string generates continues what has been generated before, if this is so behind
it. -/
theorem continues_of_generates_nonterminal
    (inhabited : ∀ symbol ∈ rest, Follow.options found.firsts found.nullable symbol ≠ [])
    (within : Lookahead.Within k ⟨u ++ v⟩) (hopen : Lookahead.isComplete ⟨u⟩ k = false)
    (behind : ∀ {u v}, Lookahead.Within k ⟨u ++ v⟩ → found.generates (Lookahead.isComplete ⟨u ++ v⟩ k) rest v = true →
      Follow.Continues found.firsts found.nullable k ⟨u⟩ rest ⟨u ++ v⟩)
    (h : found.generates (Lookahead.isComplete ⟨u ++ v⟩ k) (.nonterminal a :: rest) v = true) :
    Follow.Continues found.firsts found.nullable k ⟨u⟩ (.nonterminal a :: rest) ⟨u ++ v⟩ := by
  have hvanishes : a ∈ found.nullable → found.generates (Lookahead.isComplete ⟨u ++ v⟩ k) rest v = true →
      Follow.Continues found.firsts found.nullable k ⟨u⟩ (.nonterminal a :: rest) ⟨u ++ v⟩ := by
    intro hnullable hrest
    refine Follow.continues_nonterminal_iff.mpr ⟨.empty, Follow.mem_options_nonterminal.mpr (Or.inr ⟨?_, rfl⟩), ?_⟩
    · exact ExtTreeSet.contains_iff_mem.mpr hnullable
    · rw [Lookahead.concat_empty]
      exact behind within hrest
  by_cases hne : v = []
  · subst hne
    rw [List.append_nil, hopen, generates_nil, Bool.false_or, Nullable.all, List.all_cons, Bool.and_eq_true] at h
    apply hvanishes (ExtTreeSet.contains_iff_mem.mp h.1)
    rw [generates_nil, Bool.or_eq_true]
    exact Or.inr h.2
  rcases generates_nonterminal_cases hne h with
    ⟨hnullable, hrest⟩ | ⟨w, hw, _, ⟨later, hlater, rfl, hrest⟩ | ⟨hle, hend⟩⟩
  · exact hvanishes (ExtTreeSet.contains_iff_mem.mp hnullable) hrest
  · have hwellFormed := (Grammar.within_of_mem_firstSets hfound.firsts hw).wellFormed
    rw [← List.append_assoc] at within hrest ⊢
    refine Follow.continues_nonterminal_iff.mpr ⟨w, Follow.mem_options_nonterminal.mpr (Or.inl hw), ?_⟩
    rw [Lookahead.concat_eq_of_prefix within.left hopen hwellFormed List.prefix_rfl (Or.inr rfl)]
    exact behind within hrest
  · have hwellFormed := (Grammar.within_of_mem_firstSets hfound.firsts hw).wellFormed
    refine Follow.continues_nonterminal_iff.mpr ⟨w, Follow.mem_options_nonterminal.mpr (Or.inl hw), ?_⟩
    rw [Lookahead.concat_eq_of_prefix within hopen hwellFormed hle (hend.imp_right And.left)]
    cases hcomplete : Lookahead.isComplete ⟨u ++ v⟩ k with
    | true => exact .of_isComplete inhabited hcomplete
    | false =>
        rw [hcomplete] at hend
        have hall := (hend.resolve_left Bool.false_ne_true).2
        have hrest : Follow.Continues found.firsts found.nullable k ⟨u ++ v⟩ rest ⟨u ++ v ++ []⟩ := by
          apply behind
          · rwa [List.append_nil]
          · rw [generates_nil, hall, Bool.or_true]
        rwa [List.append_nil] at hrest

include hg

theorem generates_of_continues_nonterminal (within : Lookahead.Within k ⟨u ++ v⟩)
    (hopen : Lookahead.isComplete ⟨u⟩ k = false)
    (behind : ∀ {u v}, Lookahead.Within k ⟨u ++ v⟩ →
      Follow.Continues found.firsts found.nullable k ⟨u⟩ rest ⟨u ++ v⟩ →
        found.generates (Lookahead.isComplete ⟨u ++ v⟩ k) rest v = true)
    (h : Follow.Continues found.firsts found.nullable k ⟨u⟩ (.nonterminal a :: rest) ⟨u ++ v⟩) :
    found.generates (Lookahead.isComplete ⟨u ++ v⟩ k) (.nonterminal a :: rest) v = true := by
  obtain ⟨w, hw, hlater⟩ := Follow.continues_nonterminal_iff.mp h
  obtain ⟨s, t, hconcat, hsplit, hstop⟩ := Lookahead.exists_concat_eq ⟨u⟩ w k
  have hconcat : Lookahead.concat ⟨u⟩ w k = ⟨u ++ s⟩ := congrArg Lookahead.mk hconcat
  rw [hconcat] at hlater hstop
  obtain ⟨later, rfl⟩ := (List.prefix_append_right_inj u).mp hlater.isPrefix
  rw [← List.append_assoc] at within hlater ⊢
  have hrest := behind within hlater
  by_cases hempty : w = .empty
  · subst hempty
    obtain ⟨rfl, rfl⟩ := List.append_eq_nil_iff.mp hsplit.symm
    refine generates_of_nullable ?_ hrest
    rcases Follow.mem_options_nonterminal.mp hw with hfirst | ⟨hnullable, _⟩
    · rw [hfound.nullable]
      exact Grammar.mem_nullable_of_empty_mem_firsts hg hfound.pos hfound.firsts hfirst
    · exact ExtTreeSet.contains_iff_mem.mp hnullable
  have hfirst := (Follow.mem_options_nonterminal.mp hw).resolve_right fun hvanishes => hempty hvanishes.2
  have hne : s ≠ [] := by
    rintro rfl
    rw [List.append_nil, hopen] at hstop
    obtain rfl := hstop.resolve_left Bool.false_ne_true
    exact hempty (congrArg Lookahead.mk hsplit)
  rcases hstop with hcomplete | rfl
  · obtain rfl := Lookahead.eq_nil_of_isComplete hcomplete within
    rw [List.append_nil, List.append_nil, hcomplete]
    exact generates_of_prefix hfirst hne ⟨t, hsplit.symm⟩
  · exact generates_nonterminal hfirst hne (hsplit.trans (List.append_nil s)) hrest

/-- Where a part of a word has been generated, a string generates the rest exactly if it continues the part to the
word. -/
theorem generates_iff_continues {x : List Symbol}
    (inhabited : ∀ symbol ∈ x, Follow.options found.firsts found.nullable symbol ≠ [])
    (within : Lookahead.Within k ⟨u ++ v⟩) :
    found.generates (Lookahead.isComplete ⟨u ++ v⟩ k) x v = true ↔
      Follow.Continues found.firsts found.nullable k ⟨u⟩ x ⟨u ++ v⟩ := by
  induction x generalizing u v with
  | nil =>
      cases v with
      | nil =>
          rw [generates_nil, List.append_nil, Nullable.all, List.all_nil, Bool.or_true]
          exact iff_of_true rfl (.stop ⟨u⟩)
      | cons t v =>
          rw [generates]
          refine iff_of_false Bool.false_ne_true fun h => ?_
          generalize hw : (⟨u ++ t :: v⟩ : Lookahead) = w at h
          cases h
          simp at hw
  | cons symbol rest ih =>
      obtain ⟨hsymbol, hrest⟩ := List.forall_mem_cons.mp inhabited
      cases hopen : Lookahead.isComplete ⟨u⟩ k with
      | true =>
          obtain rfl := Lookahead.eq_nil_of_isComplete hopen within
          rw [List.append_nil, generates_nil, hopen, Bool.true_or]
          exact iff_of_true rfl (.of_isComplete inhabited hopen)
      | false =>
          cases symbol with
          | terminal t =>
              by_cases hplain : t = .epsilon
              · rw [hplain, generates_epsilon, Follow.continues_epsilon_iff]
                exact ih hrest within
              · have hstop : Lookahead.isComplete ⟨u ++ v⟩ k = false ∨ v ≠ [] := by
                  by_cases hv : v = []
                  · exact Or.inl (by rw [hv, List.append_nil, hopen])
                  · exact Or.inr hv
                rw [Follow.continues_terminal_iff hplain hopen, generates_terminal_iff hplain hstop]
                constructor
                · rintro ⟨later, rfl, h⟩
                  rw [List.append_cons u t later] at within h ⊢
                  exact (ih hrest within).mp h
                · intro h
                  obtain ⟨later, rfl⟩ := (List.prefix_append_right_inj u).mp h.isPrefix
                  refine ⟨later, rfl, ?_⟩
                  rw [List.singleton_append, List.append_cons u t later] at within h ⊢
                  exact (ih hrest within).mpr h
          | nonterminal a =>
              constructor
              · exact continues_of_generates_nonterminal hfound hrest within hopen fun within => (ih hrest within).mp
              · exact generates_of_continues_nonterminal hg hfound within hopen fun within => (ih hrest within).mpr

end

end Prediction

namespace Grammar

variable {g : Grammar} {k : Nat} {firsts : FirstSets}

/-- A string whose nonterminals have productions generates a word within the bound exactly if the word is one of those
from which FOLLOW makes what stands behind a nonterminal. -/
theorem generates_iff_mem_firstWords (constructed : g.Constructed) (checked : ∃ unreachable, g.check = .ok unreachable)
    (pos : 0 < k) (hfirsts : g.firstSets k = .ok firsts) :
    ∃ found, g.prediction k = .ok found ∧ found.firsts = firsts ∧
      ∀ x, (∀ a, .nonterminal a ∈ x → g.defines a = true) → ∀ w : Lookahead, w.Within k →
        (found.generates (w.isComplete k) x w.terminals = true ↔ w ∈ Follow.firstWords firsts g.nullable k x) := by
  have hg := constructed.wellFormed
  have hfound : g.prediction k = .ok ⟨k, g.nullable, firsts, g.followSets k firsts g.nullable⟩ := by
    simp only [prediction, (admits_eq_ok_iff pos).mpr (closed_iff_check.mpr checked), hfirsts]
    rfl
  refine ⟨_, hfound, rfl, fun x defined w hw => ?_⟩
  have hinhabited : ∀ symbol ∈ x, Follow.options firsts g.nullable symbol ≠ [] := by
    intro symbol hsymbol
    refine Follow.options_ne_nil hg hfirsts fun a ha => defined a ?_
    rwa [← ha]
  rw [Follow.mem_firstWords_iff hinhabited]
  exact Prediction.generates_iff_continues hg (Prediction.describes_of_prediction hfound) (u := []) hinhabited hw

/-- A word that is not complete is generated exactly, and a complete one may still not be generated. -/
theorem nested_generates_iff_mem_firstWords :
    ∃ found, nested.prediction 2 = .ok found ∧
      found.generates false [.nonterminal ⟨0⟩, .terminal ⟨3⟩] [⟨3⟩] = true ∧
      found.generates true [.nonterminal ⟨0⟩, .terminal ⟨3⟩] [⟨2⟩, ⟨3⟩] = false := by
  obtain ⟨firsts, hfirsts, hmem, habsent⟩ : ∃ firsts, nested.firstSets 2 = .ok firsts ∧
      (Follow.firstWords firsts nested.nullable 2 [.nonterminal ⟨0⟩, .terminal ⟨3⟩]).contains ⟨[⟨3⟩]⟩ = true ∧
      (Follow.firstWords firsts nested.nullable 2 [.nonterminal ⟨0⟩, .terminal ⟨3⟩]).contains ⟨[⟨2⟩, ⟨3⟩]⟩ = false :=
    ⟨_, by cbv, by cbv, by cbv⟩
  obtain ⟨found, hfound, _, hgenerates⟩ :=
    generates_iff_mem_firstWords constructed_nested ⟨[], by cbv⟩ (by decide) hfirsts
  have hstring := hgenerates [.nonterminal ⟨0⟩, .terminal ⟨3⟩] (by simp; decide)
  refine ⟨found, hfound, ?_, ?_⟩
  · exact (hstring ⟨[⟨3⟩]⟩ ⟨by decide, by decide⟩).mpr (ExtTreeSet.contains_iff_mem.mp hmem)
  · rw [Bool.eq_false_iff]
    intro h
    have hmem := (hstring ⟨[⟨2⟩, ⟨3⟩]⟩ ⟨by decide, by decide⟩).mp h
    rw [← ExtTreeSet.contains_iff_mem, habsent] at hmem
    cases hmem

end Grammar

end PredictiveParsing
