import PredictiveParsing.Proofs.First.Existence
import PredictiveParsing.Proofs.Follow.Rules
import PredictiveParsing.Proofs.Nullable.Derivation

/-! # Grammars that agree on some nonterminals

Two grammars agree on a set of nonterminals if its members have the same productions in both, with only members on the
right, and the same order of those alternatives that are not epsilon productions. From a string whose nonterminals are
members the same strings are then derived, and as a member is replaced by the same alternative in both grammars, the
same strings are read; so the analyses say the same of the members and of the strings that are made of them. -/

namespace PredictiveParsing

open Std

namespace Grammar

variable {part : Nonterminal → Prop} {g g' : Grammar} {k : Nat} {x y z : List Symbol} {v : List Terminal}
  {a : Nonterminal} {p : Production} {w w' : Lookahead} {firsts firsts' : FirstSets}

/-- The members of a set have the same productions in two grammars, with members on the right. -/
structure AgreesOn (part : Nonterminal → Prop) (g g' : Grammar) : Prop where
  inherits : ∀ p ∈ g.productions, part p.head → ∀ a, .nonterminal a ∈ p.symbols → part a
  mem_iff : ∀ p, part p.head → (p ∈ g.productions ↔ p ∈ g'.productions)
  alternatives : ∀ a, part a → (g.alternatives a).filter (!·.isEpsilon) = (g'.alternatives a).filter (!·.isEpsilon)

namespace AgreesOn

theorem symm (h : AgreesOn part g g') : AgreesOn part g' g where
  inherits p mem hhead := h.inherits p ((h.mem_iff p hhead).mpr mem) hhead
  mem_iff p hhead := (h.mem_iff p hhead).symm
  alternatives a ha := (h.alternatives a ha).symm

variable (h : AgreesOn part g g')
include h

theorem derives (derives : g.Derives x y) (members : ∀ a, .nonterminal a ∈ x → part a) : g'.Derives x y := by
  induction derives with
  | refl x => exact .refl x
  | head first _ ih =>
      cases first with
      | @replace p mem before after =>
          have hhead : part p.head := members p.head (List.mem_append_right before List.mem_cons_self)
          have hrewrites : g'.Rewrites (before ++ .nonterminal p.head :: after) (before ++ (p.body ++ after)) :=
            .replace ((h.mem_iff p hhead).mp mem) before after
          refine .head hrewrites (ih fun a ha => ?_)
          rw [List.mem_append, List.mem_append] at ha
          rcases ha with hbefore | hbody | hafter
          · exact members a (List.mem_append_left _ hbefore)
          · exact h.inherits p mem hhead a (Production.mem_symbols_of_mem_body hbody)
          · exact members a (List.mem_append_right before (List.mem_cons_of_mem _ hafter))

section

variable (hg : g.WellFormed) (hg' : g'.WellFormed)
include hg hg'

theorem mem_nullable_iff (ha : part a) : a ∈ g.nullable ↔ a ∈ g'.nullable := by
  have hmembers : ∀ b, .nonterminal b ∈ [Symbol.nonterminal a] → part b := by
    intro b hb
    rwa [Symbol.nonterminal.inj (List.mem_singleton.mp hb)]
  rw [Grammar.mem_nullable_iff hg, Grammar.mem_nullable_iff hg']
  exact ⟨fun hderives => h.derives hderives hmembers, fun hderives => h.symm.derives hderives hmembers⟩

theorem defines_eq (ha : part a) : g.defines a = g'.defines a := by
  rw [Bool.eq_iff_iff, hg.defines_iff, hg'.defines_iff]
  refine exists_congr fun p => and_congr_left ?_
  rintro rfl
  exact h.mem_iff p ha

/-- The alternative that replaces a nonterminal is its first one that is not an epsilon production. -/
theorem replacement?_eq (ha : part a) : First.replacement? g a = First.replacement? g' a := by
  rw [First.replacement?, First.replacement?, alternatives?, alternatives?, h.defines_eq hg hg' ha]
  split
  · have hfirst : (g.alternatives a).find? (!·.isEpsilon) = (g'.alternatives a).find? (!·.isEpsilon) := by
      rw [← List.head?_filter, ← List.head?_filter, h.alternatives a ha]
    exact congrArg Except.ok hfirst
  · rfl

theorem reading (hread : First.Reading g x v z) (members : ∀ a, .nonterminal a ∈ x → part a) :
    First.Reading g' x v z := by
  induction hread with
  | stop x => exact .stop x
  | terminal plain _ ih => exact .terminal plain (ih fun a ha => members a (List.mem_cons_of_mem _ ha))
  | epsilon _ ih => exact .epsilon (ih fun a ha => members a (List.mem_cons_of_mem _ ha))
  | drop choice _ ih =>
      rw [h.replacement?_eq hg hg' (members _ List.mem_cons_self)] at choice
      exact .drop choice (ih fun a ha => members a (List.mem_cons_of_mem _ ha))
  | @replace a p x z v choice _ ih =>
      have ha := members a List.mem_cons_self
      obtain ⟨mem, rfl, _⟩ := First.mem_of_replacement? hg choice
      rw [h.replacement?_eq hg hg' ha] at choice
      refine .replace choice (ih fun b hb => ?_)
      rcases List.mem_append.mp hb with hb | hb
      · exact h.inherits p mem ha b hb
      · exact members b (List.mem_cons_of_mem _ hb)

theorem loops (mem : p ∈ g.productions) (hhead : part p.head) (hloops : First.Loops g p) : First.Loops g' p := by
  obtain ⟨plain, z, hread⟩ := hloops
  exact ⟨plain, z, h.reading hg hg' hread (h.inherits p mem hhead)⟩

theorem word_eq (mem : p ∈ g.productions) (hhead : part p.head) (hw : First.ofProduction g k p = .ok w)
    (hw' : First.ofProduction g' k p = .ok w') : w = w' := by
  cases hkind : p.isEpsilon with
  | true =>
      rw [First.ofProduction, hkind, if_pos rfl] at hw hw'
      rw [hw] at hw'
      exact Except.ok.inj hw'
  | false =>
      obtain ⟨hwithin, z, hread, hstop⟩ := First.reading_of_ofProduction hkind hw
      obtain ⟨hwithin', z', hread', hstop'⟩ := First.reading_of_ofProduction hkind hw'
      have hsame := h.reading hg hg' hread (h.inherits p mem hhead)
      have hcut := hsame.eq_truncate (Nat.le_refl k) hwithin hstop hwithin' hread' hstop'
      rwa [Lookahead.truncate_of_length_le hwithin'.length_le] at hcut

section

variable (hfirsts : g.firstSets k = .ok firsts) (hfirsts' : g'.firstSets k = .ok firsts')
include hfirsts hfirsts'

theorem mem_firsts (ha : part a) (hw : w ∈ firsts.get a) : w ∈ firsts'.get a := by
  obtain ⟨p, mem, rfl, hword⟩ := (mem_get_firstSets hfirsts).mp hw
  have hmem := (h.mem_iff p ha).mp mem
  obtain ⟨w', hword'⟩ := exists_ofProduction_of_firstSets hfirsts' hmem
  rw [← h.word_eq hg hg' mem ha hword hword'] at hword'
  exact (mem_get_firstSets hfirsts').mpr ⟨p, hmem, rfl, hword'⟩

theorem firsts_eq (ha : part a) : firsts.get a = firsts'.get a := by
  apply ExtTreeSet.ext_mem
  exact fun w => ⟨h.mem_firsts hg hg' hfirsts hfirsts' ha, h.symm.mem_firsts hg' hg hfirsts' hfirsts ha⟩

theorem options_eq (ha : part a) :
    Follow.options firsts g.nullable (.nonterminal a) = Follow.options firsts' g'.nullable (.nonterminal a) := by
  have hnullable : g.nullable.contains a = g'.nullable.contains a := by
    rw [Bool.eq_iff_iff, ExtTreeSet.contains_iff_mem, ExtTreeSet.contains_iff_mem]
    exact h.mem_nullable_iff hg hg' ha
  rw [Follow.options, Follow.options, h.firsts_eq hg hg' hfirsts hfirsts' ha, hnullable]

/-- A string of members begins with the same words in both grammars. -/
theorem firstWords_eq (members : ∀ a, .nonterminal a ∈ x → part a) :
    Follow.firstWords firsts g.nullable k x = Follow.firstWords firsts' g'.nullable k x := by
  unfold Follow.firstWords
  generalize ExtTreeSet.ofList [Lookahead.empty] = words
  induction x generalizing words with
  | nil => rfl
  | cons symbol rest ih =>
      have hoptions : Follow.options firsts g.nullable symbol = Follow.options firsts' g'.nullable symbol := by
        cases symbol with
        | terminal => rfl
        | nonterminal a => exact h.options_eq hg hg' hfirsts hfirsts' (members a List.mem_cons_self)
      have hrest := ih fun a ha => members a (List.mem_cons_of_mem _ ha)
      simp only [Follow.continued, hoptions, hrest]

/-- What stands behind a nonterminal in a production of a member begins with the same words in both grammars. -/
theorem firstWords_eq_of_occurs (mem : p ∈ g.productions) (hhead : part p.head) {before after : List Symbol}
    (occurs : p.symbols = before ++ .nonterminal a :: after) :
    Follow.firstWords firsts g.nullable k after = Follow.firstWords firsts' g'.nullable k after := by
  apply h.firstWords_eq hg hg' hfirsts hfirsts'
  intro b hb
  exact h.inherits p mem hhead b (Production.mem_symbols_of_mem_behind occurs hb)

/-- What follows by productions of members follows in the other grammar too. -/
theorem follows (start : g.start = g'.start) (full : ∀ p ∈ g.productions, part p.head)
    (hfollows : Follow.Follows g firsts g.nullable k a w) : Follow.Follows g' firsts' g'.nullable k a w := by
  induction hfollows with
  | start =>
      rw [start]
      exact .start
  | complete mem occurs word complete =>
      have hhead := full _ mem
      rw [h.firstWords_eq_of_occurs hg hg' hfirsts hfirsts' mem hhead occurs] at word
      exact .complete ((h.mem_iff _ hhead).mp mem) occurs word complete
  | continued mem occurs word incomplete _ ih =>
      have hhead := full _ mem
      rw [h.firstWords_eq_of_occurs hg hg' hfirsts hfirsts' mem hhead occurs] at word
      exact .continued ((h.mem_iff _ hhead).mp mem) occurs word incomplete ih

end

end

end AgreesOn

end Grammar

end PredictiveParsing
