import Mathlib.Order.Bounds.Basic
import PredictiveParsing.Proofs.Follow.Rules

/-! # The least solution of the rules of FOLLOW

A round of FOLLOW can also be told without a report: it copies the table that it reads, and adds at each occurrence
the words that this table puts behind the nonterminal, which becomes present even if there are none. Such rounds are
repeated until one returns the table that it reads. They come to an end, because any other round finds one of finitely
many candidates or makes one of finitely many nonterminals present. The words at the end are those of the table that
the rounds with reports settle at, and they are in every family that solves the rules. -/

namespace PredictiveParsing

open Std

namespace MultiMap

variable {κ α : Type} [Ord κ] [TransOrd κ] [Ord α] [TransOrd α]

/-- Inserts values under a key, which becomes present even if there are none. -/
def insertAll (m : MultiMap κ α) (key : κ) (values : List α) : MultiMap κ α :=
  ⟨m.sets.insert key ((m.get key).insertMany values)⟩

variable [LawfulEqOrd κ] [LawfulEqOrd α] [DecidableEq α] {m : MultiMap κ α} {key other : κ} {values : List α} {x : α}

omit [LawfulEqOrd α] [DecidableEq α] in
theorem mem_sets_insertAll : other ∈ (m.insertAll key values).sets ↔ other = key ∨ other ∈ m.sets := by
  rw [insertAll, ExtTreeMap.mem_insert, LawfulEqOrd.compare_eq_iff_eq, @eq_comm _ key]

theorem mem_get_insertAll :
    x ∈ (m.insertAll key values).get other ↔ other = key ∧ x ∈ values ∨ x ∈ m.get other := by
  by_cases heq : other = key
  · have hget : (m.insertAll key values).get key = (m.get key).insertMany values := by
      simp [insertAll, get, get?]
    rw [heq, hget, ExtTreeSet.mem_insertMany_list, List.contains_iff_mem]
    tauto
  · have hget : (m.insertAll key values).get other = m.get other := by
      simp [insertAll, get, get?, ExtTreeMap.getElem?_insert, Ne.symm heq]
    rw [hget]
    tauto

end MultiMap

namespace Follow

variable {k : Nat} {known : LookaheadTable} {a : Nonterminal} {w : Lookahead}

section Rounds

variable {occurrences : List Occurrence}

/-- One round, told by the table that it leaves. -/
def advance (occurrences : List Occurrence) (k : Nat) (known : LookaheadTable) : LookaheadTable :=
  occurrences.foldl (fun next o => next.insertAll o.target (o.contribution k known)) known

theorem additions_cons {o : Occurrence} {rest : List Occurrence} :
    additions (o :: rest) k known = (o.contribution k known).map (o.target, ·) ++ additions rest k known :=
  List.flatMap_cons

theorem mem_get_advance :
    w ∈ (advance occurrences k known).get a ↔ (a, w) ∈ additions occurrences k known ∨ w ∈ known.get a := by
  have hfold : ∀ next : LookaheadTable,
      w ∈ (occurrences.foldl (fun next o => next.insertAll o.target (o.contribution k known)) next).get a ↔
        (a, w) ∈ additions occurrences k known ∨ w ∈ next.get a := by
    induction occurrences with
    | nil => simp [additions]
    | cons o rest ih =>
        intro next
        rw [List.foldl_cons, ih, MultiMap.mem_get_insertAll, additions_cons, List.mem_append, List.mem_map]
        grind
  exact hfold known

theorem mem_sets_advance :
    a ∈ (advance occurrences k known).sets ↔ (∃ o ∈ occurrences, o.target = a) ∨ a ∈ known.sets := by
  have hfold : ∀ next : LookaheadTable,
      a ∈ (occurrences.foldl (fun next o => next.insertAll o.target (o.contribution k known)) next).sets ↔
        (∃ o ∈ occurrences, o.target = a) ∨ a ∈ next.sets := by
    induction occurrences with
    | nil => simp
    | cons o rest ih =>
        intro next
        rw [List.foldl_cons, ih, MultiMap.mem_sets_insertAll]
        grind
  exact hfold known

/-- Both kinds of rounds find the same words. -/
theorem get_advance : (advance occurrences k known).get a = (round occurrences k known).1.get a := by
  apply ExtTreeSet.ext_mem
  intro w
  rw [mem_get_advance, round, mem_get_sweep_add]

/-- The occurrences of nonterminals that are not present. -/
def absent (occurrences : List Occurrence) (known : LookaheadTable) : List Occurrence :=
  occurrences.filter fun o => o.target ∉ known.sets

/-- A round that does not return the table that it reads finds a word or makes a nonterminal present. -/
theorem exists_new_of_advance_ne (h : advance occurrences k known ≠ known) :
    (∃ entry ∈ additions occurrences k known, entry.2 ∉ known.get entry.1) ∨
      ∃ o ∈ occurrences, o.target ∉ known.sets := by
  by_contra hnothing
  push Not at hnothing
  obtain ⟨hwords, hkeys⟩ := hnothing
  apply h
  apply MultiMap.ext_mem
  · intro a
    rw [mem_sets_advance]
    refine ⟨fun h => h.elim ?_ id, Or.inr⟩
    rintro ⟨o, ho, rfl⟩
    exact hkeys o ho
  · intro a w
    rw [mem_get_advance]
    exact ⟨fun h => h.elim (hwords (a, w)) id, Or.inr⟩

/-- How many words are left to be found and nonterminals to be made present. -/
def remaining (occurrences : List Occurrence) (k : Nat) (known : LookaheadTable) : Nat :=
  (missing occurrences k known).length + (absent occurrences known).length

theorem remaining_advance_lt (within : Within occurrences k known) (h : advance occurrences k known ≠ known) :
    remaining occurrences k (advance occurrences k known) < remaining occurrences k known := by
  have hgrows : ∀ a, ∀ w ∈ known.get a, w ∈ (advance occurrences k known).get a :=
    fun _ _ hw => mem_get_advance.mpr (Or.inr hw)
  have hstays : ∀ o ∈ occurrences, decide (o.target ∉ (advance occurrences k known).sets) = true →
      decide (o.target ∉ known.sets) = true := by
    intro o _ ho
    simp only [decide_eq_true_eq, mem_sets_advance, not_or] at ho ⊢
    exact ho.2
  have hmissing : (missing occurrences k (advance occurrences k known)).length ≤ (missing occurrences k known).length :=
    length_missing_le hgrows
  have habsent : (absent occurrences (advance occurrences k known)).length ≤ (absent occurrences known).length :=
    length_filter_le hstays
  unfold remaining
  rcases exists_new_of_advance_ne h with ⟨entry, hentry, hunknown⟩ | ⟨o, ho, hunknown⟩
  · have hfound := mem_get_advance.mpr (Or.inl hentry)
    have hless := length_missing_lt hgrows (mem_candidates_of_mem_additions within hentry) hunknown hfound
    omega
  · have hpresent : o.target ∈ (advance occurrences k known).sets := mem_sets_advance.mpr (Or.inl ⟨o, ho, rfl⟩)
    have hless : (absent occurrences (advance occurrences k known)).length < (absent occurrences known).length :=
      length_filter_lt hstays ho (by simpa using hunknown) (by simpa using hpresent)
    omega

end Rounds

variable {g : Grammar} {firsts : FirstSets} {nullable : ExtTreeSet Nonterminal}

/-- What holds of a table that rounds from the initial one come to. -/
structure Approaches (g : Grammar) (firsts : FirstSets) (nullable : ExtTreeSet Nonterminal) (k : Nat)
    (known : LookaheadTable) : Prop where
  within : Within (occurrences g firsts nullable k) k known
  start : .ofTerminals [.endMarker] ∈ known.get g.start
  sound : ∀ a, ∀ w ∈ known.get a, Follows g firsts nullable k a w
  keys : ∀ a ∈ known.sets, a = g.start ∨ ∃ o ∈ occurrences g firsts nullable k, o.target = a

theorem approaches_initial : Approaches g firsts nullable k (initial g.start) where
  within := within_initial _ k g.start
  start := mem_get_initial.mpr ⟨rfl, rfl⟩
  sound a w h := by
    obtain ⟨rfl, rfl⟩ := mem_get_initial.mp h
    exact .start
  keys a h := (MultiMap.mem_insert.mp h).imp_right fun hempty => absurd hempty ExtTreeMap.not_mem_empty

theorem Approaches.advance (h : Approaches g firsts nullable k known) :
    Approaches g firsts nullable k (advance (occurrences g firsts nullable k) k known) where
  within a w hw := within_round h.within a w (by rwa [← get_advance])
  start := mem_get_advance.mpr (Or.inr h.start)
  sound a w hw := (mem_get_advance.mp hw).elim (follows_of_mem_additions h.sound) (h.sound a w)
  keys a ha := (mem_sets_advance.mp ha).elim Or.inr (h.keys a)

/-- A table that rounds come to and a round returns holds exactly what the rules generate. -/
theorem Approaches.mem_get_iff (h : Approaches g firsts nullable k known)
    (fixed : Follow.advance (occurrences g firsts nullable k) k known = known) :
    w ∈ known.get a ↔ Follows g firsts nullable k a w := by
  have hsolves : Solves g firsts nullable k fun a => {w | w ∈ known.get a} := by
    apply solves_of_mem_additions h.start
    intro a w hadded
    rw [← fixed]
    exact mem_get_advance.mpr (Or.inl hadded)
  exact ⟨h.sound a w, hsolves.mem_of_follows⟩

/-- Only nonterminals with productions become present in the rounds of a closed grammar. -/
theorem Approaches.mem_heads (h : Approaches g firsts nullable k known) (closed : g.Closed) (present : a ∈ known.sets) :
    a ∈ g.heads := by
  rw [Grammar.mem_heads]
  rcases h.keys a present with rfl | ⟨o, ho, rfl⟩
  · exact closed g.start List.mem_cons_self
  · obtain ⟨p, mem, before, a, after, occurs, rfl⟩ := mem_occurrences_iff.mp ho
    exact closed.defines mem (Production.mem_symbols_of_occurs occurs)

/-- Rounds from the initial table come to one that a round returns. -/
theorem exists_fixed (g : Grammar) (firsts : FirstSets) (nullable : ExtTreeSet Nonterminal) (k : Nat) :
    ∃ limit path last, trajectory? (advance (occurrences g firsts nullable k) k) limit (initial g.start) = some path ∧
      path.getLast? = some last ∧ advance (occurrences g firsts nullable k) k last = last ∧
        Approaches g firsts nullable k last :=
  ⟨_, exists_fixed_of_rank approaches_initial (fun _ => Approaches.advance) fun _ h => remaining_advance_lt h.within⟩

end Follow

namespace Grammar

variable {g : Grammar}

/-- The FOLLOW table is what a round returns that the rounds come to, with an entry for each nonterminal that has
productions. -/
theorem followSets_eq_touchAll (closed : g.Closed) {k : Nat} {firsts : FirstSets}
    {nullable : ExtTreeSet Nonterminal} {known : LookaheadTable}
    (h : Follow.Approaches g firsts nullable k known)
    (fixed : Follow.advance (Follow.occurrences g firsts nullable k) k known = known) :
    g.followSets k firsts nullable = known.touchAll g.heads := by
  have hwords : ∀ a w, w ∈ (g.followSets k firsts nullable).get a ↔ w ∈ known.get a := by
    intro a w
    rw [mem_followSets_iff, h.mem_get_iff fixed]
  apply MultiMap.ext_mem
  · intro a
    rw [mem_sets_followSets_iff, MultiMap.mem_touchAll]
    refine ⟨Or.imp_right ?_, fun h' => Or.inl (h'.elim id (h.mem_heads closed))⟩
    rintro ⟨w, hw⟩
    exact MultiMap.mem_sets_of_mem_get ((hwords a w).mp hw)
  · intro a w
    rw [hwords, MultiMap.get_touchAll]

/-- The rounds of FOLLOW come to an end, whatever the FIRST sets are, and what they leave is the least family of sets
that holds the end marker for the start symbol and, wherever a nonterminal occurs in a right-hand side, the complete
FIRST words of what stands behind it and the continuations of the other ones by the words of the head. -/
theorem follow_is_least (checked : ∃ unreachable, g.check = .ok unreachable) (k : Nat) (firsts : FirstSets) :
    (∃ limit path last, trajectory? (Follow.advance (Follow.occurrences g firsts g.nullable k) k) limit
        (Follow.initial g.start) = some path ∧ path.getLast? = some last ∧
      g.followSets k firsts g.nullable = last.touchAll g.heads) ∧
    IsLeast {family | Follow.Solves g firsts g.nullable k family}
      fun a => {w | w ∈ (g.followSets k firsts g.nullable).get a} := by
  have closed := closed_iff_check.mpr checked
  constructor
  · obtain ⟨limit, path, last, hpath, hlast, hfixed, happroaches⟩ := Follow.exists_fixed g firsts g.nullable k
    exact ⟨limit, path, last, hpath, hlast, followSets_eq_touchAll closed happroaches hfixed⟩
  · have hfamily : (fun a => {w | w ∈ (g.followSets k firsts g.nullable).get a}) =
        fun a => {w | Follow.Follows g firsts g.nullable k a w} := by
      ext a w
      exact mem_followSets_iff
    rw [hfamily]
    exact ⟨Follow.solves_follows, fun family h a w => h.mem_of_follows⟩

/-- The closing terminal follows the inner nonterminal in every family that solves the rules. -/
theorem follow_of_nested_is_least :
    ∃ firsts, nested.firstSets 1 = .ok firsts ∧
      (∃ limit path last, trajectory? (Follow.advance (Follow.occurrences nested firsts nested.nullable 1) 1) limit
          (Follow.initial ⟨0⟩) = some path ∧ path.getLast? = some last ∧
        nested.followSets 1 firsts nested.nullable = last.touchAll [⟨0⟩, ⟨1⟩]) ∧
      ∀ family, Follow.Solves nested firsts nested.nullable 1 family → ⟨[⟨3⟩]⟩ ∈ family ⟨1⟩ := by
  obtain ⟨firsts, hfirsts, hmem⟩ : ∃ firsts, nested.firstSets 1 = .ok firsts ∧
      ⟨[⟨3⟩]⟩ ∈ (nested.followSets 1 firsts nested.nullable).get ⟨1⟩ := ⟨_, by cbv, by cbv⟩
  have hheads : nested.heads = [⟨0⟩, ⟨1⟩] := by decide
  obtain ⟨hends, _, hleast⟩ := follow_is_least (g := nested) ⟨[], by cbv⟩ 1 firsts
  rw [hheads] at hends
  exact ⟨firsts, hfirsts, hends, fun family h => hleast h ⟨1⟩ hmem⟩

end Grammar

end PredictiveParsing
