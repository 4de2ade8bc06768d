import Mathlib.Data.Set.Defs
import PredictiveParsing.Proofs.Collections
import PredictiveParsing.Proofs.Follow.Continuation

/-! # The rules of FOLLOW

What follows a nonterminal is generated by three rules: the end marker follows the start symbol; where a nonterminal
occurs in a right-hand side, the complete FIRST words of the symbols behind it follow it; and the other ones follow it
when they are continued by what follows the head. A family of sets solves the rules if they add nothing to it. The
table that the rounds settle at holds exactly what these rules generate: no round finds anything else, and the last one
finds nothing that is missing. -/

namespace PredictiveParsing

open Std

namespace Follow

variable {g : Grammar} {firsts : FirstSets} {nullable : ExtTreeSet Nonterminal} {k : Nat} {a : Nonterminal}
  {w : Lookahead}

/-- The words that the rules put behind a nonterminal. -/
inductive Follows (g : Grammar) (firsts : FirstSets) (nullable : ExtTreeSet Nonterminal) (k : Nat) :
    Nonterminal → Lookahead → Prop where
  | start : Follows g firsts nullable k g.start (.ofTerminals [.endMarker])
  | complete {p : Production} {before after : List Symbol} {a : Nonterminal} {u : Lookahead}
      (mem : p ∈ g.productions) (occurs : p.symbols = before ++ .nonterminal a :: after)
      (word : u ∈ firstWords firsts nullable k after) (complete : u.isComplete k = true) :
      Follows g firsts nullable k a u
  | continued {p : Production} {before after : List Symbol} {a : Nonterminal} {u v : Lookahead}
      (mem : p ∈ g.productions) (occurs : p.symbols = before ++ .nonterminal a :: after)
      (word : u ∈ firstWords firsts nullable k after) (incomplete : u.isComplete k = false)
      (behind : Follows g firsts nullable k p.head v) : Follows g firsts nullable k a (u.concat v k)

/-- The rules add nothing to a family of sets of words. -/
structure Solves (g : Grammar) (firsts : FirstSets) (nullable : ExtTreeSet Nonterminal) (k : Nat)
    (family : Nonterminal → Set Lookahead) : Prop where
  start : .ofTerminals [.endMarker] ∈ family g.start
  complete : ∀ p ∈ g.productions, ∀ before a after, p.symbols = before ++ .nonterminal a :: after →
    ∀ u ∈ firstWords firsts nullable k after, u.isComplete k = true → u ∈ family a
  continued : ∀ p ∈ g.productions, ∀ before a after, p.symbols = before ++ .nonterminal a :: after →
    ∀ u ∈ firstWords firsts nullable k after, u.isComplete k = false → ∀ v ∈ family p.head, u.concat v k ∈ family a

theorem solves_follows : Solves g firsts nullable k fun a => {w | Follows g firsts nullable k a w} where
  start := .start
  complete _ mem _ _ _ occurs _ word complete := .complete mem occurs word complete
  continued _ mem _ _ _ occurs _ word incomplete _ behind := .continued mem occurs word incomplete behind

/-- What the rules generate is in every family that solves them. -/
theorem Solves.mem_of_follows {family : Nonterminal → Set Lookahead} (h : Solves g firsts nullable k family)
    (follows : Follows g firsts nullable k a w) : w ∈ family a := by
  induction follows with
  | start => exact h.start
  | complete mem occurs word complete => exact h.complete _ mem _ _ _ occurs _ word complete
  | continued mem occurs word incomplete _ ih => exact h.continued _ mem _ _ _ occurs _ word incomplete _ ih

/-- Whatever follows a nonterminal is complete: a word that is not waits for a complete one to continue it. -/
theorem Follows.isComplete (h : Follows g firsts nullable k a w) : w.isComplete k = true := by
  induction h with
  | start => exact Bool.or_true _
  | complete _ _ _ complete => exact complete
  | continued _ _ _ _ _ ih => exact Lookahead.isComplete_concat ih

theorem mem_occurrences_iff {o : Occurrence} :
    o ∈ occurrences g firsts nullable k ↔ ∃ p ∈ g.productions, ∃ before a after,
      p.symbols = before ++ .nonterminal a :: after ∧ o = ⟨p.head, a, (firstWords firsts nullable k after).toList⟩ := by
  rw [occurrences, List.mem_flatMap]
  simp only [mem_occurrencesIn_iff]

/-- What a round adds: at each occurrence the complete words and the continuations of the others. -/
theorem mem_additions_iff {occurrences : List Occurrence} {known : LookaheadTable} :
    (a, w) ∈ additions occurrences k known ↔ ∃ o ∈ occurrences, o.target = a ∧ ∃ u ∈ o.trailing,
      (u.isComplete k = true ∧ w = u) ∨
        (u.isComplete k = false ∧ ∃ v : Lookahead, v ∈ known.get o.head ∧ w = u.concat v k) := by
  simp only [additions, Occurrence.contribution, List.mem_flatMap, List.mem_map, Prod.mk.injEq]
  refine exists_congr fun o => and_congr_right fun _ => ?_
  constructor
  · rintro ⟨_, ⟨u, hu, hw⟩, rfl, rfl⟩
    refine ⟨rfl, u, hu, ?_⟩
    split at hw
    · rename_i hcomplete
      exact Or.inl ⟨hcomplete, List.mem_singleton.mp hw⟩
    · rename_i hopen
      obtain ⟨v, hv, rfl⟩ := List.mem_map.mp hw
      exact Or.inr ⟨Bool.eq_false_iff.mpr hopen, v, ExtTreeSet.mem_toList.mp hv, rfl⟩
  · rintro ⟨rfl, u, hu, h⟩
    refine ⟨w, ⟨u, hu, ?_⟩, rfl, rfl⟩
    rcases h with ⟨hcomplete, rfl⟩ | ⟨hopen, v, hv, rfl⟩
    · rw [if_pos hcomplete]
      exact List.mem_singleton_self w
    · rw [hopen, if_neg Bool.false_ne_true]
      exact List.mem_map_of_mem (ExtTreeSet.mem_toList.mpr hv)

/-- A round that reads what the rules generate adds what they generate. -/
theorem follows_of_mem_additions {known : LookaheadTable}
    (sound : ∀ a, ∀ w ∈ known.get a, Follows g firsts nullable k a w)
    (h : (a, w) ∈ additions (occurrences g firsts nullable k) k known) : Follows g firsts nullable k a w := by
  obtain ⟨o, ho, rfl, u, hu, h⟩ := mem_additions_iff.mp h
  obtain ⟨p, mem, before, b, after, occurs, rfl⟩ := mem_occurrences_iff.mp ho
  have hword := ExtTreeSet.mem_toList.mp hu
  rcases h with ⟨hcomplete, rfl⟩ | ⟨hopen, v, hv, rfl⟩
  · exact .complete mem occurs hword hcomplete
  · exact .continued mem occurs hword hopen (sound p.head v hv)

/-- A table solves the rules if it holds the end marker for the start symbol and all that a round adds. -/
theorem solves_of_mem_additions {known : LookaheadTable} (start : .ofTerminals [.endMarker] ∈ known.get g.start)
    (closed : ∀ a w, (a, w) ∈ additions (occurrences g firsts nullable k) k known → w ∈ known.get a) :
    Solves g firsts nullable k fun a => {w | w ∈ known.get a} := by
  have hoccurs : ∀ p ∈ g.productions, ∀ before a after, p.symbols = before ++ .nonterminal a :: after →
      ⟨p.head, a, (firstWords firsts nullable k after).toList⟩ ∈ occurrences g firsts nullable k :=
    fun p mem before a after occurs => mem_occurrences_iff.mpr ⟨p, mem, before, a, after, occurs, rfl⟩
  refine ⟨start, ?_, ?_⟩
  · intro p mem before a after occurs u word complete
    apply closed
    rw [mem_additions_iff]
    exact ⟨_, hoccurs p mem before a after occurs, rfl, u, ExtTreeSet.mem_toList.mpr word, Or.inl ⟨complete, rfl⟩⟩
  · intro p mem before a after occurs u word incomplete v behind
    apply closed
    rw [mem_additions_iff]
    exact ⟨_, hoccurs p mem before a after occurs, rfl, u, ExtTreeSet.mem_toList.mpr word,
      Or.inr ⟨incomplete, v, behind, rfl⟩⟩

/-- A round that reports no change has found nothing that was not known. -/
theorem mem_get_of_sweep_unchanged {known : LookaheadTable} {entries : List (Nonterminal × Lookahead)}
    (h : (sweep add known entries).2 = .unchanged) : ∀ entry ∈ entries, entry.2 ∈ known.get entry.1 := by
  induction entries generalizing known with
  | nil => simp
  | cons entry rest ih =>
      rw [sweep, Change.join_eq_unchanged] at h
      have hfound : entry.2 ∈ known.get entry.1 := by
        by_contra habsent
        have hchanged : (add known entry).2 = .changed := by
          simpa [add, MultiMap.insertReporting, MultiMap.contains] using habsent
        rw [hchanged] at h
        cases h.1
      refine List.forall_mem_cons.mpr ⟨hfound, fun other hother => ?_⟩
      have hother := ih h.2 other hother
      rw [add, MultiMap.insertReporting, MultiMap.mem_get_insert] at hother
      rcases hother with ⟨hkey, hword⟩ | hother
      · rw [hkey, hword]
        exact hfound
      · exact hother

theorem mem_get_initial {start : Nonterminal} :
    w ∈ (initial start).get a ↔ a = start ∧ w = .ofTerminals [.endMarker] := by
  rw [initial, MultiMap.mem_get_insert, MultiMap.get_empty]
  simp

section Settled

variable {occurrences : List Occurrence} {start : Nonterminal}

theorem mem_close_induction {P : Nonterminal → Lookahead → Prop} (base : P start (.ofTerminals [.endMarker]))
    (round : ∀ known : LookaheadTable, (∀ a, ∀ w ∈ known.get a, P a w) →
      ∀ a w, (a, w) ∈ additions occurrences k known → P a w) :
    ∀ a, ∀ w ∈ (close occurrences k start).get a, P a w := by
  unfold close
  apply settle_induction (P := fun (known : { known // Within occurrences k known }) => ∀ a, ∀ w ∈ known.1.get a, P a w)
  · intro a w hw
    obtain ⟨rfl, rfl⟩ := mem_get_initial.mp hw
    exact base
  · intro known ih a w hw
    rcases mem_get_sweep_add.mp hw with hadded | hknown
    · exact round known.1 ih a w hadded
    · exact ih a w hknown

/-- What is known at the start is known at the end. -/
theorem endMarker_mem_close : Lookahead.ofTerminals [.endMarker] ∈ (close occurrences k start).get start := by
  unfold close
  apply settle_induction (P := fun (known : { known // Within occurrences k known }) =>
    Lookahead.ofTerminals [.endMarker] ∈ known.1.get start)
  · exact mem_get_initial.mpr ⟨rfl, rfl⟩
  · intro known ih
    exact mem_get_sweep_add.mpr (Or.inr ih)

/-- The table that the rounds settle at holds what a further round would add. -/
theorem mem_close_of_mem_additions (h : (a, w) ∈ additions occurrences k (close occurrences k start)) :
    w ∈ (close occurrences k start).get a := by
  have hsettled : ∃ last : LookaheadTable, round occurrences k last = (close occurrences k start, .unchanged) := by
    obtain ⟨last, hlast⟩ := @exists_unchanged_settle { known // Within occurrences k known }
      (fun known => (⟨(round occurrences k known.1).1, within_round known.2⟩, (round occurrences k known.1).2))
      (fun known => (missing occurrences k known.1).length) (fun known => length_missing_round_lt known.2)
      ⟨initial start, within_initial occurrences k start⟩
    obtain ⟨hclose, hunchanged⟩ := Prod.ext_iff.mp hlast
    exact ⟨last.1, Prod.ext (congrArg Subtype.val hclose) hunchanged⟩
  obtain ⟨last, hlast⟩ := hsettled
  have hknown := mem_get_of_sweep_unchanged (congrArg Prod.snd hlast)
  have hsame : ∀ b, (close occurrences k start).get b = last.get b := by
    intro b
    have hclose : (round occurrences k last).1 = close occurrences k start := congrArg Prod.fst hlast
    refine ExtTreeSet.ext_mem fun v => ?_
    rw [← hclose, round, mem_get_sweep_add]
    exact ⟨fun h => h.elim (hknown (b, v)) id, Or.inr⟩
  rw [hsame]
  apply hknown (a, w)
  simp only [mem_additions_iff, hsame] at h ⊢
  exact h

/-- The keys at which the rounds settle are those with a word. -/
theorem mem_sets_close_iff :
    a ∈ (close occurrences k start).sets ↔ ∃ w, w ∈ (close occurrences k start).get a := by
  refine ⟨fun hkey => ?_, fun ⟨w, hw⟩ => MultiMap.mem_sets_of_mem_get hw⟩
  have hinsert : ∀ (known : LookaheadTable) (entry : Nonterminal × Lookahead),
      (∀ a ∈ known.sets, ∃ w, w ∈ known.get a) →
      ∀ a ∈ (known.insert entry.1 entry.2).sets, ∃ w, w ∈ (known.insert entry.1 entry.2).get a := by
    intro known entry hknown a ha
    simp only [MultiMap.mem_get_insert]
    rcases MultiMap.mem_insert.mp ha with rfl | ha
    · exact ⟨entry.2, Or.inl ⟨rfl, rfl⟩⟩
    · obtain ⟨w, hw⟩ := hknown a ha
      exact ⟨w, Or.inr hw⟩
  have hall : ∀ a ∈ (close occurrences k start).sets, ∃ w, w ∈ (close occurrences k start).get a := by
    unfold close
    apply settle_induction (P := fun (known : { known // Within occurrences k known }) =>
      ∀ a ∈ known.1.sets, ∃ w, w ∈ known.1.get a)
    · exact hinsert .empty (start, .ofTerminals [.endMarker]) fun a ha => absurd ha ExtTreeMap.not_mem_empty
    · intro known hknown
      exact sweep_induction (P := fun known : LookaheadTable => ∀ a ∈ known.sets, ∃ w, w ∈ known.get a) hknown
        fun entry _ known hknown => hinsert known entry hknown
  exact hall a hkey

end Settled

end Follow

namespace Grammar

variable {g : Grammar} {firsts : FirstSets} {nullable : ExtTreeSet Nonterminal} {k : Nat} {a : Nonterminal}
  {w : Lookahead}

/-- The FOLLOW table holds exactly what the rules generate. -/
theorem mem_followSets_iff : w ∈ (g.followSets k firsts nullable).get a ↔ Follow.Follows g firsts nullable k a w := by
  rw [followSets, MultiMap.get_touchAll]
  constructor
  · exact Follow.mem_close_induction (P := Follow.Follows g firsts nullable k) .start
      (fun known sound a w => Follow.follows_of_mem_additions sound) a w
  · exact (Follow.solves_of_mem_additions Follow.endMarker_mem_close
      fun a w => Follow.mem_close_of_mem_additions).mem_of_follows

/-- The FOLLOW table has an entry for each nonterminal that has productions or that something follows. -/
theorem mem_sets_followSets_iff :
    a ∈ (g.followSets k firsts nullable).sets ↔ a ∈ g.heads ∨ ∃ w, w ∈ (g.followSets k firsts nullable).get a := by
  rw [followSets, MultiMap.mem_touchAll, MultiMap.get_touchAll, Follow.mem_sets_close_iff]

end Grammar

end PredictiveParsing
