import Mathlib.Data.Nat.Find
import PredictiveParsing.Proofs.Lookahead
import PredictiveParsing.Proofs.Parser.Window

/-! # The tokens of a source

Of a source only its tokens count, that is its answers in front of the first one that ends the input, and whether this
one is the epsilon marker. They determine the sequence of terminals that a run sees and how often the source is asked.
A source without such an answer has a token for every request. -/

namespace PredictiveParsing

namespace TokenSource

variable {source source' : TokenSource} {tokens : List Terminal}

/-- The answers in front of the first one that ends the input. -/
structure EndsAfter (source : TokenSource) (tokens : List Terminal) : Prop where
  answers : ∀ (i : Nat) (h : i < tokens.length), source i = some tokens[i]
  plain : ∀ t ∈ tokens, t ≠ .epsilon ∧ t ≠ .endMarker
  stops : source.stops tokens.length = true

/-- No answer ends the input. -/
def Endless (source : TokenSource) : Prop := ∀ i, source.stops i = false

theorem stopped_eq_false_iff {n : Nat} : source.stopped n = false ↔ ∀ i < n, source.stops i = false := by
  induction n with
  | zero => simp [stopped]
  | succ n ih => rw [stopped, Bool.or_eq_false_iff, ih, Nat.forall_lt_succ_right]

/-- A source has tokens up to an answer that ends the input, or is endless. -/
theorem endsAfter_or_endless (source : TokenSource) : (∃ tokens, source.EndsAfter tokens) ∨ source.Endless := by
  by_cases h : ∃ i, source.stops i = true
  · have hopen : ∀ i < Nat.find h, source.stopped (i + 1) = false := by
      intro i hi
      rw [stopped_eq_false_iff]
      exact fun j hj => Bool.eq_false_iff.mpr (Nat.find_min h (by omega))
    refine Or.inl ⟨source.terminalsFrom 0 (Nat.find h), fun i hi => ?_, fun t ht => ?_, ?_⟩
    · rw [length_terminalsFrom] at hi
      rw [(token_of_stopped_eq_false (hopen i hi)).1]
      simp [terminalsFrom]
    · obtain ⟨i, hi, rfl⟩ := List.mem_map.mp ht
      have hlt : i < Nat.find h := by simpa using hi
      exact (token_of_stopped_eq_false (hopen i hlt)).2
    · rw [length_terminalsFrom]
      exact Nat.find_spec h
  · refine Or.inr fun i => Bool.eq_false_iff.mpr fun hstops => h ⟨i, hstops⟩

namespace EndsAfter

variable (h : source.EndsAfter tokens)
include h

theorem stops_eq_false {i : Nat} (hi : i < tokens.length) : source.stops i = false := by
  obtain ⟨hepsilon, hend⟩ := h.plain tokens[i] (List.getElem_mem hi)
  rw [TokenSource.stops, h.answers i hi, Option.all_some, Bool.or_eq_false_iff]
  exact ⟨Bool.eq_false_iff.mpr (mt Terminal.isEpsilon_iff.mp hepsilon),
    Bool.eq_false_iff.mpr (mt Terminal.isEnd_iff.mp hend)⟩

theorem stopped_eq (n : Nat) : source.stopped n = decide (tokens.length < n) := by
  by_cases hn : tokens.length < n
  · rw [decide_eq_true hn]
    refine stopped_mono (m := tokens.length + 1) ?_ hn
    rw [stopped, h.stops, Bool.or_true]
  · rw [decide_eq_false hn, stopped_eq_false_iff]
    exact fun i hi => h.stops_eq_false (by omega)

theorem answered_eq (n : Nat) : source.answered n = min n (tokens.length + 1) := by
  induction n with
  | zero => exact (Nat.zero_min _).symm
  | succ n ih =>
      rw [answered, h.stopped_eq, ih]
      simp only [decide_eq_true_eq]
      split <;> omega

theorem terminalAt_eq (i : Nat) : source.terminalAt i = tokens[i]?.getD .endMarker := by
  rw [terminalAt, h.stopped_eq]
  simp only [decide_eq_true_eq]
  by_cases hi : i < tokens.length
  · rw [if_neg (by omega), h.answers i hi, List.getElem?_eq_getElem hi]
  · rw [if_pos (by omega), List.getElem?_eq_none (Nat.le_of_not_lt hi), Option.getD_none]

/-- The source is spoiled as soon as it has answered with the epsilon marker. -/
theorem spoiled_eq (n : Nat) :
    source.spoiled n = (decide (tokens.length < n) && (source tokens.length).any Terminal.isEpsilon) := by
  induction n with
  | zero => simp [spoiled]
  | succ n ih =>
      rw [spoiled, ih, h.stopped_eq]
      rcases Nat.lt_trichotomy tokens.length n with hlt | rfl | hlt
      · simp [hlt, Nat.lt_succ_of_lt hlt]
      · simp
      · rw [h.answers n hlt]
        have hplain : tokens[n].isEpsilon = false :=
          Bool.eq_false_iff.mpr (mt Terminal.isEpsilon_iff.mp (h.plain tokens[n] (List.getElem_mem hlt)).1)
        simp [Nat.not_lt.mpr (Nat.le_of_lt hlt), Nat.not_lt.mpr hlt, hplain]

/-- What comes from a place on are the tokens that are left, followed by end markers. -/
theorem terminalsFrom_eq (c k : Nat) :
    source.terminalsFrom c k = (tokens.drop c ++ List.replicate k Terminal.endMarker).take k := by
  apply List.ext_getElem
  · simp [length_terminalsFrom]
  · intro i hi _
    rw [length_terminalsFrom] at hi
    rw [List.getElem_take, List.getElem_append]
    simp only [terminalsFrom, List.getElem_map, List.getElem_range', Nat.one_mul, h.terminalAt_eq, List.length_drop,
      List.getElem_drop, List.getElem_replicate]
    split
    · rw [List.getElem?_eq_getElem, Option.getD_some]
    · rw [List.getElem?_eq_none (by omega), Option.getD_none]

/-- Up to the first end marker these are the tokens that are left and one end marker. -/
theorem ofTerminals_terminalsFrom (c k : Nat) :
    Lookahead.ofTerminals (source.terminalsFrom c k) = ⟨(tokens.drop c ++ [Terminal.endMarker]).take k⟩ := by
  induction k generalizing c with
  | zero => rfl
  | succ k ih =>
      rw [terminalsFrom_succ, h.terminalAt_eq]
      by_cases hc : c < tokens.length
      · rw [List.getElem?_eq_getElem hc, Option.getD_some, List.drop_eq_getElem_cons hc, List.cons_append,
          List.take_succ_cons, Lookahead.ofTerminals_token (h.plain _ (List.getElem_mem hc)), ih (c + 1)]
      · rw [List.getElem?_eq_none (Nat.le_of_not_lt hc), Option.getD_none, List.drop_eq_nil_of_le (Nat.le_of_not_lt hc)]
        rw [Lookahead.ofTerminals_endMarker, List.nil_append, List.take_succ_cons, List.take_nil]

/-- Without the epsilon marker the input ends with nothing or with the end marker. -/
theorem ending_of_plain (plain : (source tokens.length).any Terminal.isEpsilon = false) :
    source tokens.length = none ∨ source tokens.length = some .endMarker := by
  have hstops := h.stops
  rw [TokenSource.stops] at hstops
  cases hanswer : source tokens.length with
  | none => exact Or.inl rfl
  | some t =>
      rw [hanswer, Option.any_some] at plain
      rw [hanswer, Option.all_some, plain, Bool.false_or, Terminal.isEnd_iff] at hstops
      exact Or.inr (congrArg some hstops)

/-- A source has no other tokens in front of the end of its input. -/
theorem unique {tokens' : List Terminal} (h' : source.EndsAfter tokens') : tokens' = tokens := by
  have hlength : tokens'.length = tokens.length := by
    have hle : ¬tokens'.length < tokens.length := by
      intro hlt
      have hstops := h'.stops
      rw [h.stops_eq_false hlt] at hstops
      cases hstops
    have hge : ¬tokens.length < tokens'.length := by
      intro hlt
      have hstops := h.stops
      rw [h'.stops_eq_false hlt] at hstops
      cases hstops
    omega
  refine List.ext_getElem hlength fun i hi hi' => ?_
  exact Option.some.inj ((h'.answers i hi).symm.trans (h.answers i hi'))

end EndsAfter

namespace Endless

variable (h : source.Endless)
include h

theorem stopped_eq (n : Nat) : source.stopped n = false := stopped_eq_false_iff.mpr fun i _ => h i

theorem answered_eq (n : Nat) : source.answered n = n := answered_of_stopped_eq_false (h.stopped_eq n)

/-- What comes from a place on are the answers from there on. -/
theorem map_terminalsFrom (c k : Nat) : (source.terminalsFrom c k).map some = (List.range' c k).map source := by
  rw [terminalsFrom, List.map_map]
  exact List.map_congr_left fun i _ => (token_of_stopped_eq_false (h.stopped_eq (i + 1))).1.symm

theorem ofTerminals_terminalsFrom (c k : Nat) :
    Lookahead.ofTerminals (source.terminalsFrom c k) = ⟨source.terminalsFrom c k⟩ := by
  induction k generalizing c with
  | zero => rfl
  | succ k ih =>
      have hplain := (token_of_stopped_eq_false (h.stopped_eq (c + 1))).2
      rw [terminalsFrom_succ, Lookahead.ofTerminals_token hplain, ih (c + 1)]

end Endless

/-- Two sources look the same to a run. -/
structure Alike (source source' : TokenSource) : Prop where
  answered : ∀ n, source'.answered n = source.answered n
  stopped : ∀ n, source'.stopped n = source.stopped n
  spoiled : ∀ n, source'.spoiled n = source.spoiled n
  terminals : ∀ c k, source'.terminalsFrom c k = source.terminalsFrom c k

/-- Two sources give the same answers up to a point, at which they either agree as well or are both at their end, be it
that the end marker comes or nothing. -/
def Agree (source source' : TokenSource) (n : Nat) : Prop :=
  (∀ i < n, source' i = source i) ∧
    (source' n = source n ∨ (source n).all Terminal.isEnd = true ∧ (source' n).all Terminal.isEnd = true)

theorem stops_of_all_isEnd {i : Nat} (h : (source i).all Terminal.isEnd = true) : source.stops i = true := by
  rw [stops]
  cases hanswer : source i with
  | none => rfl
  | some t =>
      rw [hanswer, Option.all_some] at h
      rw [Option.all_some, h, Bool.or_true]

theorem any_isEpsilon_of_all_isEnd {i : Nat} (h : (source i).all Terminal.isEnd = true) :
    (source i).any Terminal.isEpsilon = false := by
  cases hanswer : source i with
  | none => rfl
  | some t =>
      rw [hanswer, Option.all_some, Terminal.isEnd_iff] at h
      rw [h]
      rfl

theorem EndsAfter.of_agree (h : source.EndsAfter tokens) (agree : source.Agree source' tokens.length) :
    source'.EndsAfter tokens := by
  obtain ⟨hbefore, hend⟩ := agree
  refine ⟨fun i hi => (hbefore i hi).trans (h.answers i hi), h.plain, ?_⟩
  rcases hend with hsame | ⟨_, hend⟩
  · rw [TokenSource.stops, hsame]
    exact h.stops
  · exact stops_of_all_isEnd hend

/-- Sources that agree up to the end of the input look the same. -/
theorem EndsAfter.alike (h : source.EndsAfter tokens) (agree : source.Agree source' tokens.length) :
    source.Alike source' := by
  have h' := h.of_agree agree
  have hepsilon : (source' tokens.length).any Terminal.isEpsilon = (source tokens.length).any Terminal.isEpsilon := by
    rcases agree.2 with hsame | ⟨hend, hend'⟩
    · rw [hsame]
    · rw [any_isEpsilon_of_all_isEnd hend, any_isEpsilon_of_all_isEnd hend']
  refine ⟨fun n => ?_, fun n => ?_, fun n => ?_, fun c k => ?_⟩
  · rw [h.answered_eq, h'.answered_eq]
  · rw [h.stopped_eq, h'.stopped_eq]
  · rw [h.spoiled_eq, h'.spoiled_eq, hepsilon]
  · rw [h.terminalsFrom_eq, h'.terminalsFrom_eq]

end TokenSource

end PredictiveParsing
