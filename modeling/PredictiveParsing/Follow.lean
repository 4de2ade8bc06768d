import Std.Data.ExtTreeSet
import PredictiveParsing.First
import PredictiveParsing.Nullable

/-! # FOLLOW words

The FOLLOW set of a nonterminal holds the words of at most `k` terminals that can stand right behind it. The end
marker follows the start symbol. Where a nonterminal occurs on the right of a production, the FIRST words of the
symbols behind it follow it; those that are not complete are continued by the FOLLOW words of the head. The sets grow
in rounds, each reading the sets of the round before, until a round adds nothing. -/

namespace PredictiveParsing

open Std

namespace Follow

/-- A nonterminal on the right of a production for `head`, with the FIRST words of what stands behind it. -/
structure Occurrence where
  head : Nonterminal
  target : Nonterminal
  trailing : List Lookahead
deriving DecidableEq, Inhabited

/-- The words that a symbol can put in its place. -/
def options (firsts : FirstSets) (nullable : ExtTreeSet Nonterminal) : Symbol → List Lookahead
  | .terminal t => [.ofTerminals [t]]
  | .nonterminal a => (firsts.get a).toList ++ if nullable.contains a then [.empty] else []

/-- Every word of a set continued by every word of a list, under the bound `k`. -/
def combine (k : Nat) (words : ExtTreeSet Lookahead) (options : List Lookahead) : ExtTreeSet Lookahead :=
  .ofList (words.toList.flatMap fun u => options.map fun v => u.concat v k)

/-- The words of a set continued by the FIRST words of a string of symbols. -/
def continued (firsts : FirstSets) (nullable : ExtTreeSet Nonterminal) (k : Nat) (words : ExtTreeSet Lookahead) :
    List Symbol → ExtTreeSet Lookahead
  | [] => words
  | symbol :: rest =>
    if words.toList.all (·.isComplete k) then words
    else if symbol.isEpsilon then continued firsts nullable k words rest
    else continued firsts nullable k (combine k words (options firsts nullable symbol)) rest

/-- The FIRST words of a string of symbols; one that is not complete is all that the string puts in its place. -/
def firstWords (firsts : FirstSets) (nullable : ExtTreeSet Nonterminal) (k : Nat) (symbols : List Symbol) :
    ExtTreeSet Lookahead :=
  continued firsts nullable k (.ofList [Lookahead.empty]) symbols

/-- The occurrences of nonterminals in the last symbols of a right-hand side. -/
def occurrencesIn (firsts : FirstSets) (nullable : ExtTreeSet Nonterminal) (k : Nat) (head : Nonterminal) :
    List Symbol → List Occurrence
  | [] => []
  | .terminal _ :: rest => occurrencesIn firsts nullable k head rest
  | .nonterminal a :: rest =>
    ⟨head, a, (firstWords firsts nullable k rest).toList⟩ :: occurrencesIn firsts nullable k head rest

/-- The occurrences of nonterminals in all productions in order. -/
def occurrences (g : Grammar) (firsts : FirstSets) (nullable : ExtTreeSet Nonterminal) (k : Nat) :
    List Occurrence :=
  g.productions.flatMap fun p => occurrencesIn firsts nullable k p.head p.symbols

/-- The words that an occurrence puts behind its nonterminal, given what is known to follow its head. -/
def Occurrence.contribution (o : Occurrence) (k : Nat) (known : LookaheadTable) : List Lookahead :=
  o.trailing.flatMap fun u => if u.isComplete k then [u] else (known.get o.head).toList.map (u.concat · k)

/-- What a round adds, given what the rounds before have found. -/
def additions (occurrences : List Occurrence) (k : Nat) (known : LookaheadTable) :
    List (Nonterminal × Lookahead) :=
  occurrences.flatMap fun o => (o.contribution k known).map (o.target, ·)

def add (known : LookaheadTable) (entry : Nonterminal × Lookahead) : LookaheadTable × Change :=
  known.insertReporting entry.1 entry.2

/-- One round. -/
def round (occurrences : List Occurrence) (k : Nat) (known : LookaheadTable) : LookaheadTable × Change :=
  sweep add known (additions occurrences k known)

/-! The rounds come to an end because there are only finitely many words over the terminals that occur, of a length
that the bound and the trailing words limit. -/

/-- The lists over an alphabet of at most a given length. -/
def lists (alphabet : List Terminal) : Nat → List (List Terminal)
  | 0 => [[]]
  | n + 1 => [] :: alphabet.flatMap fun t => (lists alphabet n).map (t :: ·)

theorem mem_lists {alphabet : List Terminal} {n : Nat} {ts : List Terminal} :
    ts ∈ lists alphabet n ↔ ts.length ≤ n ∧ ∀ t ∈ ts, t ∈ alphabet := by
  induction n generalizing ts with
  | zero => cases ts <;> simp [lists]
  | succ n ih =>
      cases ts with
      | nil => simp [lists]
      | cons t ts => simp [lists, ih, and_left_comm]

/-- The terminals that can follow. -/
def alphabet (occurrences : List Occurrence) : List Terminal :=
  .endMarker :: occurrences.flatMap fun o => o.trailing.flatMap Lookahead.terminals

/-- A length that no following word exceeds. -/
def bound (occurrences : List Occurrence) (k : Nat) : Nat := k + (alphabet occurrences).length

/-- The words that can follow, for each nonterminal that occurs. -/
def candidates (occurrences : List Occurrence) (k : Nat) : List (Nonterminal × Lookahead) :=
  occurrences.flatMap fun o =>
    (lists (alphabet occurrences) (bound occurrences k)).map fun ts => (o.target, ⟨ts⟩)

/-- Whether a word is made of the terminals that can follow and is short enough. -/
def Fits (occurrences : List Occurrence) (k : Nat) (w : Lookahead) : Prop :=
  w.terminals ∈ lists (alphabet occurrences) (bound occurrences k)

/-- A table all of whose words fit. -/
def Within (occurrences : List Occurrence) (k : Nat) (known : LookaheadTable) : Prop :=
  ∀ a, ∀ w ∈ known.get a, Fits occurrences k w

theorem fits_trailing {occurrences : List Occurrence} {k : Nat} {o : Occurrence} (ho : o ∈ occurrences)
    {u : Lookahead} (hu : u ∈ o.trailing) : Fits occurrences k u := by
  have hsub : ∀ ts : List Terminal, ts = u.terminals → ts.length ≤ (alphabet occurrences).length ∧
      ∀ t ∈ ts, t ∈ alphabet occurrences := by
    rintro _ rfl
    have hsublist : u.terminals.Sublist (alphabet occurrences) := by
      refine List.Sublist.cons _ ?_
      refine List.Sublist.trans ?_ (List.sublist_flatten_of_mem (List.mem_map_of_mem ho))
      exact List.sublist_flatten_of_mem (List.mem_map_of_mem hu)
    exact ⟨hsublist.length_le, fun t ht => hsublist.subset ht⟩
  obtain ⟨hlength, hmem⟩ := hsub _ rfl
  exact mem_lists.mpr ⟨Nat.le_trans hlength (Nat.le_add_left _ _), hmem⟩

theorem fits_concat {occurrences : List Occurrence} {k : Nat} {u v : Lookahead} (hu : Fits occurrences k u)
    (hv : Fits occurrences k v) : Fits occurrences k (u.concat v k) := by
  obtain ⟨hulength, humem⟩ := mem_lists.mp hu
  obtain ⟨_, hvmem⟩ := mem_lists.mp hv
  refine mem_lists.mpr ⟨?_, ?_⟩
  · have := Lookahead.length_concat_le u v k
    have : k ≤ bound occurrences k := Nat.le_add_right _ _
    simp only [Lookahead.length] at *
    omega
  · unfold Lookahead.concat
    split
    · exact humem
    · intro t ht
      rcases List.mem_append.mp ht with ht | ht
      · exact humem t ht
      · exact hvmem t (List.mem_of_mem_take ht)

theorem mem_candidates_of_mem_additions {occurrences : List Occurrence} {k : Nat} {known : LookaheadTable}
    (within : Within occurrences k known) {entry : Nonterminal × Lookahead}
    (h : entry ∈ additions occurrences k known) : entry ∈ candidates occurrences k := by
  obtain ⟨o, ho, h⟩ := List.mem_flatMap.mp h
  obtain ⟨w, hw, rfl⟩ := List.mem_map.mp h
  have hfits : Fits occurrences k w := by
    obtain ⟨u, hu, hw⟩ := List.mem_flatMap.mp hw
    have hfits := fits_trailing (k := k) ho hu
    split at hw
    · rw [List.mem_singleton.mp hw]
      exact hfits
    · obtain ⟨v, hv, rfl⟩ := List.mem_map.mp hw
      exact fits_concat hfits (within _ v (by simpa using hv))
  exact List.mem_flatMap.mpr ⟨o, ho, List.mem_map.mpr ⟨w.terminals, hfits, rfl⟩⟩

/-- The candidates that have not been found. -/
def missing (occurrences : List Occurrence) (k : Nat) (known : LookaheadTable) :
    List (Nonterminal × Lookahead) :=
  (candidates occurrences k).filter fun (a, w) => w ∉ known.get a

/-- A table that has found more leaves no more candidates to be found. -/
theorem length_missing_le {occurrences : List Occurrence} {k : Nat} {known next : LookaheadTable}
    (grows : ∀ a, ∀ w ∈ known.get a, w ∈ next.get a) :
    (missing occurrences k next).length ≤ (missing occurrences k known).length := by
  apply length_filter_le
  intro other _ hother
  simp only [decide_eq_true_eq] at hother ⊢
  exact fun h => hother (grows other.1 other.2 h)

theorem length_missing_lt {occurrences : List Occurrence} {k : Nat} {known next : LookaheadTable}
    (grows : ∀ a, ∀ w ∈ known.get a, w ∈ next.get a) {entry : Nonterminal × Lookahead}
    (hentry : entry ∈ candidates occurrences k) (unknown : entry.2 ∉ known.get entry.1)
    (found : entry.2 ∈ next.get entry.1) :
    (missing occurrences k next).length < (missing occurrences k known).length := by
  refine length_filter_lt (x := entry) ?_ hentry ?_ ?_
  · intro other _ hother
    simp only [decide_eq_true_eq] at hother ⊢
    exact fun h => hother (grows other.1 other.2 h)
  · simpa using unknown
  · simpa using found

theorem mem_get_add {known : LookaheadTable} {entry : Nonterminal × Lookahead} {a : Nonterminal} {w : Lookahead} :
    w ∈ (add known entry).1.get a ↔ (a = entry.1 ∧ w = entry.2) ∨ w ∈ known.get a :=
  MultiMap.mem_get_insert known entry.1 a entry.2 w

theorem length_missing_add_lt {occurrences : List Occurrence} {k : Nat} {entry : Nonterminal × Lookahead}
    (hentry : entry ∈ candidates occurrences k) {known : LookaheadTable} (h : (add known entry).2 = .changed) :
    (missing occurrences k (add known entry).1).length < (missing occurrences k known).length := by
  apply length_missing_lt (fun a w h => mem_get_add.mpr (Or.inr h)) hentry
  · simpa [add, MultiMap.insertReporting, MultiMap.contains] using h
  · exact mem_get_add.mpr (Or.inl ⟨rfl, rfl⟩)

theorem length_missing_add_le {occurrences : List Occurrence} {k : Nat} (entry : Nonterminal × Lookahead)
    (known : LookaheadTable) :
    (missing occurrences k (add known entry).1).length ≤ (missing occurrences k known).length :=
  length_missing_le fun _ _ h => mem_get_add.mpr (Or.inr h)

theorem mem_get_sweep_add {known : LookaheadTable} {entries : List (Nonterminal × Lookahead)} {a : Nonterminal}
    {w : Lookahead} : w ∈ (sweep add known entries).1.get a ↔ (a, w) ∈ entries ∨ w ∈ known.get a := by
  induction entries generalizing known with
  | nil => simp [sweep]
  | cons entry rest ih =>
      simp only [sweep, ih, mem_get_add, List.mem_cons, Prod.ext_iff]
      grind

theorem within_round {occurrences : List Occurrence} {k : Nat} {known : LookaheadTable}
    (within : Within occurrences k known) : Within occurrences k (round occurrences k known).1 := by
  intro a w hw
  rcases mem_get_sweep_add.mp hw with h | h
  · obtain ⟨o, _, h⟩ := List.mem_flatMap.mp (mem_candidates_of_mem_additions within h)
    obtain ⟨ts, hts, heq⟩ := List.mem_map.mp h
    cases heq
    exact hts
  · exact within a w h

theorem length_missing_round_lt {occurrences : List Occurrence} {k : Nat} {known : LookaheadTable}
    (within : Within occurrences k known) (h : (round occurrences k known).2 = .changed) :
    (missing occurrences k (round occurrences k known).1).length < (missing occurrences k known).length :=
  @rank_sweep_lt _ _ add (fun known => (missing occurrences k known).length) (additions occurrences k known)
    (fun entry _ => length_missing_add_le entry)
    (fun _ hentry _ => length_missing_add_lt (mem_candidates_of_mem_additions within hentry)) known h

/-- What follows before any round: the end marker behind the start symbol. -/
def initial (start : Nonterminal) : LookaheadTable := MultiMap.empty.insert start (.ofTerminals [.endMarker])

theorem within_initial (occurrences : List Occurrence) (k : Nat) (start : Nonterminal) :
    Within occurrences k (initial start) := by
  intro a w hw
  simp only [initial, MultiMap.mem_get_insert, MultiMap.get_empty] at hw
  rcases hw with ⟨_, rfl⟩ | hw
  · have hword : (Lookahead.ofTerminals [.endMarker]).terminals = [.endMarker] := by decide
    refine mem_lists.mpr ?_
    rw [hword]
    simp only [List.mem_singleton, forall_eq, bound, alphabet, List.length_cons, List.length_nil,
      List.mem_cons_self, and_true]
    omega
  · simp at hw

/-- The least table that holds the end marker for the start symbol and what every occurrence adds. -/
def close (occurrences : List Occurrence) (k : Nat) (start : Nonterminal) : LookaheadTable :=
  (settle
    (fun (known : { known // Within occurrences k known }) =>
      (⟨(round occurrences k known.1).1, within_round known.2⟩, (round occurrences k known.1).2))
    (fun known => (missing occurrences k known.1).length)
    (fun known => length_missing_round_lt known.2)
    ⟨initial start, within_initial occurrences k start⟩).1

end Follow

namespace Grammar

/-- The FOLLOW table, with an entry for each nonterminal that has productions. -/
def followSets (g : Grammar) (k : Nat) (firsts : FirstSets) (nullable : ExtTreeSet Nonterminal) :
    LookaheadTable :=
  (Follow.close (Follow.occurrences g firsts nullable k) k g.start).touchAll g.heads

end Grammar

namespace Follow

def logEntries (k : Nat) (follows : LookaheadTable) : List LogEntry :=
  [⟨.debug, s!"FOLLOW_{k} table:\n" ++ (LookaheadTable.toDoc follows).render 80⟩]

end Follow

end PredictiveParsing
