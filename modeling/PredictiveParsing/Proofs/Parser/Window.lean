import Mathlib.Data.List.Basic
import PredictiveParsing.Parser.Run

/-! # What a run sees of its source

The answers of a token source up to the first one that ends the input make a sequence of terminals, continued by end
markers for ever. After `c` tokens have been consumed the window of a run holds the next `k` terminals of this
sequence, and what the run knows of its source is what the first `c + k` requests have told. -/

namespace PredictiveParsing

namespace TokenSource

variable (source : TokenSource)

/-- Whether an answer ends the input: the end marker, the epsilon marker or nothing. -/
def stops (i : Nat) : Bool := (source i).all fun t => t.isEpsilon || t.isEnd

/-- Whether one of the first `n` answers ends the input. -/
def stopped : Nat → Bool
  | 0 => false
  | n + 1 => stopped n || source.stops n

/-- How many answers `n` requests take from the source. -/
def answered : Nat → Nat
  | 0 => 0
  | n + 1 => if source.stopped n then answered n else n + 1

/-- Whether the first `n` requests come upon the epsilon marker. -/
def spoiled : Nat → Bool
  | 0 => false
  | n + 1 => spoiled n || (!source.stopped n && (source n).any Terminal.isEpsilon)

/-- The terminal at a place of the sequence. -/
def terminalAt (i : Nat) : Terminal := if source.stopped (i + 1) then .endMarker else (source i).getD .endMarker

/-- The `k` terminals from a place on. -/
def terminalsFrom (c k : Nat) : List Terminal := (List.range' c k).map source.terminalAt

variable {source}

theorem stopped_mono {m n : Nat} (h : source.stopped m = true) (hle : m ≤ n) : source.stopped n = true := by
  induction n with
  | zero => rwa [Nat.le_zero.mp hle] at h
  | succ n ih =>
      rcases Nat.lt_or_eq_of_le hle with hlt | rfl
      · rw [stopped, ih (Nat.le_of_lt_succ hlt), Bool.true_or]
      · exact h

/-- As long as nothing has ended the input, the sequence consists of tokens. -/
theorem token_of_stopped_eq_false {i : Nat} (h : source.stopped (i + 1) = false) :
    source i = some (source.terminalAt i) ∧ source.terminalAt i ≠ .epsilon ∧ source.terminalAt i ≠ .endMarker := by
  have hstop : source.stops i = false := by
    rw [stopped, Bool.or_eq_false_iff] at h
    exact h.2
  rw [terminalAt, h]
  cases hanswer : source i with
  | none => simp [stops, hanswer] at hstop
  | some t =>
      rw [stops, hanswer, Option.all_some, Bool.or_eq_false_iff] at hstop
      refine ⟨rfl, ?_, ?_⟩
      · rintro rfl
        cases hstop.1
      · rintro rfl
        cases hstop.2

theorem terminalAt_of_stopped {i : Nat} (h : source.stopped (i + 1) = true) : source.terminalAt i = .endMarker := by
  rw [terminalAt, if_pos h]

theorem terminalAt_eq_endMarker_iff {i : Nat} :
    source.terminalAt i = .endMarker ↔ source.stopped (i + 1) = true := by
  refine ⟨fun h => ?_, terminalAt_of_stopped⟩
  by_contra hstopped
  exact (token_of_stopped_eq_false (Bool.eq_false_iff.mpr hstopped)).2.2 h

/-- Behind an end marker there are only end markers. -/
theorem terminalAt_eq_endMarker_of_le {i j : Nat} (h : source.terminalAt i = .endMarker) (hle : i ≤ j) :
    source.terminalAt j = .endMarker :=
  terminalAt_of_stopped (stopped_mono (terminalAt_eq_endMarker_iff.mp h) (Nat.succ_le_succ hle))

theorem stopped_of_stopped_succ {n : Nat} (h : source.stopped (n + 1) = false) : source.stopped n = false := by
  rw [stopped, Bool.or_eq_false_iff] at h
  exact h.1

theorem answered_of_stopped_eq_false {n : Nat} (h : source.stopped n = false) : source.answered n = n := by
  cases n with
  | zero => rfl
  | succ n => rw [answered, stopped_of_stopped_succ h, if_neg Bool.false_ne_true]

theorem spoiled_of_stopped_eq_false {n : Nat} (h : source.stopped n = false) : source.spoiled n = false := by
  induction n with
  | zero => rfl
  | succ n ih =>
      have hstopped := stopped_of_stopped_succ h
      have hplain : (source n).any Terminal.isEpsilon = false := by
        obtain ⟨hanswer, hne, _⟩ := token_of_stopped_eq_false h
        rw [hanswer, Option.any_some, ← Bool.not_eq_true, Terminal.isEpsilon_iff]
        exact hne
      rw [spoiled, ih hstopped, hplain, Bool.and_false, Bool.or_false]

theorem terminalsFrom_succ (c k : Nat) :
    source.terminalsFrom c (k + 1) = source.terminalAt c :: source.terminalsFrom (c + 1) k := by
  rw [terminalsFrom, terminalsFrom, List.range'_succ, List.map_cons]

theorem terminalsFrom_concat (c k : Nat) :
    source.terminalsFrom c (k + 1) = source.terminalsFrom c k ++ [source.terminalAt (c + k)] := by
  rw [terminalsFrom, terminalsFrom, List.range'_concat, List.map_append, List.map_singleton, Nat.one_mul]

theorem length_terminalsFrom (c k : Nat) : (source.terminalsFrom c k).length = k := by
  rw [terminalsFrom, List.length_map, List.length_range']

theorem terminalsFrom_add (c m n : Nat) :
    source.terminalsFrom c (m + n) = source.terminalsFrom c m ++ source.terminalsFrom (c + m) n := by
  induction n with
  | zero => exact (List.append_nil _).symm
  | succ n ih => rw [← Nat.add_assoc, terminalsFrom_concat, terminalsFrom_concat, ih, List.append_assoc, Nat.add_assoc]

/-- What stands somewhere in the sequence comes there. -/
theorem terminalsFrom_of_append {u v w : List Terminal}
    (h : source.terminalsFrom 0 (u ++ (v ++ w)).length = u ++ (v ++ w)) : source.terminalsFrom u.length v.length = v := by
  rw [List.length_append, List.length_append, terminalsFrom_add, terminalsFrom_add, Nat.zero_add] at h
  obtain ⟨_, h⟩ := List.append_inj h (length_terminalsFrom 0 u.length)
  exact (List.append_inj h (length_terminalsFrom u.length v.length)).1

end TokenSource

namespace Run

variable {τ : Type} {source : TokenSource} {run : Run τ} {n c k : Nat}

/-- A request changes nothing but what the run knows of its source. -/
theorem exists_pull_eq (source : TokenSource) (run : Run τ) :
    ∃ pulled sourceDone emptyToken, (run.pull source).2 = { run with pulled, sourceDone, emptyToken } := by
  unfold pull
  split
  · exact ⟨_, _, _, rfl⟩
  · dsimp only
    split
    · exact ⟨_, _, _, rfl⟩
    · split
      · exact ⟨_, _, _, rfl⟩
      · split <;> exact ⟨_, _, _, rfl⟩

theorem exists_advance_eq (source : TokenSource) (run : Run τ) :
    ∃ pulled sourceDone emptyToken window,
      run.advance source = { run with pulled, sourceDone, emptyToken, window } := by
  obtain ⟨pulled, sourceDone, emptyToken, h⟩ := exists_pull_eq source { run with window := run.window.tail }
  refine ⟨pulled, sourceDone, emptyToken,
    run.window.tail ++ [(pull source { run with window := run.window.tail }).1], ?_⟩
  rw [advance, widen, ← Prod.eta (pull source { run with window := run.window.tail }), h]

theorem stack_advance (source : TokenSource) (run : Run τ) : (run.advance source).stack = run.stack := by
  obtain ⟨_, _, _, _, h⟩ := exists_advance_eq source run
  rw [h]

theorem root_advance (source : TokenSource) (run : Run τ) : (run.advance source).root = run.root := by
  obtain ⟨_, _, _, _, h⟩ := exists_advance_eq source run
  rw [h]

theorem phase_advance (source : TokenSource) (run : Run τ) : (run.advance source).phase = run.phase := by
  obtain ⟨_, _, _, _, h⟩ := exists_advance_eq source run
  rw [h]

/-- The run knows what the first `n` requests have told about the source. -/
structure Informed (source : TokenSource) (n : Nat) (run : Run τ) : Prop where
  pulled : run.pulled = source.answered n
  sourceDone : run.sourceDone = source.stopped n
  emptyToken : run.emptyToken = source.spoiled n

/-- A request yields the next terminal and changes nothing but what the run knows. -/
theorem pull_eq (h : run.Informed source n) :
    run.pull source = (source.terminalAt n,
      { run with
        pulled := source.answered (n + 1)
        sourceDone := source.stopped (n + 1)
        emptyToken := source.spoiled (n + 1) }) := by
  obtain ⟨pulled, sourceDone, emptyToken, window, stack, root, phase⟩ := run
  obtain ⟨rfl, rfl, rfl⟩ := h
  cases hstopped : source.stopped n with
  | true =>
      have hnext : source.stopped (n + 1) = true := by rw [TokenSource.stopped, hstopped, Bool.true_or]
      simp [pull, TokenSource.terminalAt_of_stopped hnext, TokenSource.answered, TokenSource.spoiled, hstopped, hnext]
  | false =>
      have hpulled := TokenSource.answered_of_stopped_eq_false hstopped
      have hplain := TokenSource.spoiled_of_stopped_eq_false hstopped
      have hnext : source.stopped (n + 1) = source.stops n := by rw [TokenSource.stopped, hstopped, Bool.false_or]
      cases hanswer : source n with
      | none =>
          simp [pull, TokenSource.terminalAt, TokenSource.answered, TokenSource.spoiled, TokenSource.stops, hstopped,
            hpulled, hplain, hnext, hanswer]
      | some t =>
          cases hepsilon : t.isEpsilon <;> cases hend : t.isEnd <;>
            simp [pull, TokenSource.terminalAt, TokenSource.answered, TokenSource.spoiled, TokenSource.stops,
              hstopped, hpulled, hplain, hnext, hanswer, hepsilon, hend]

/-- The run as it is after requests and with another window. -/
def refreshed (source : TokenSource) (n : Nat) (window : List Terminal) (run : Run τ) : Run τ :=
  { run with
    pulled := source.answered n
    sourceDone := source.stopped n
    emptyToken := source.spoiled n
    window }

/-- The window of a run after `c` tokens have been consumed, and what the run knows then. -/
structure Reads (source : TokenSource) (k c : Nat) (run : Run τ) : Prop where
  informed : run.Informed source (c + k)
  window : run.window = source.terminalsFrom c k

theorem reads_refreshed (run : Run τ) : (run.refreshed source (c + k) (source.terminalsFrom c k)).Reads source k c :=
  ⟨⟨rfl, rfl, rfl⟩, rfl⟩

theorem Reads.withStack (h : run.Reads source k c) (stack : List Symbol) (root : Option τ) :
    Reads source k c { run with stack, root } :=
  ⟨⟨h.informed.pulled, h.informed.sourceDone, h.informed.emptyToken⟩, h.window⟩

theorem fill_eq (h : run.Reads source k c) (n : Nat) :
    run.fill source n = run.refreshed source (c + (k + n)) (source.terminalsFrom c (k + n)) := by
  induction n generalizing run k with
  | zero =>
      obtain ⟨⟨hpulled, hdone, hempty⟩, hwindow⟩ := h
      obtain ⟨pulled, sourceDone, emptyToken, window, stack, root, phase⟩ := run
      simp_all [fill, refreshed]
  | succ n ih =>
      have hwiden : run.widen source = run.refreshed source (c + (k + 1)) (source.terminalsFrom c (k + 1)) := by
        rw [widen, pull_eq h.informed, TokenSource.terminalsFrom_concat, ← h.window]
        rfl
      rw [fill, hwiden, ih (reads_refreshed run), Nat.add_right_comm k 1 n]
      rfl

theorem begin_eq (start : Nonterminal) :
    (Run.begin start k source : Run τ) = (unread start).refreshed source k (source.terminalsFrom 0 k) := by
  rw [Run.begin, fill_eq (k := 0) (c := 0) ⟨⟨rfl, rfl, rfl⟩, rfl⟩, Nat.zero_add, Nat.zero_add]

theorem advance_eq (h : run.Reads source (k + 1) c) :
    run.advance source = run.refreshed source (c + 1 + (k + 1)) (source.terminalsFrom (c + 1) (k + 1)) := by
  have htail : Informed source (c + (k + 1)) { run with window := run.window.tail } :=
    ⟨h.informed.pulled, h.informed.sourceDone, h.informed.emptyToken⟩
  rw [advance, widen, pull_eq htail, TokenSource.terminalsFrom_concat, Nat.add_right_comm c 1 (k + 1),
    show c + 1 + k = c + (k + 1) by omega]
  simp only [h.window, TokenSource.terminalsFrom_succ, List.tail_cons]
  rfl

theorem front_eq (h : run.Reads source (k + 1) c) : run.front = source.terminalAt c := by
  rw [front, h.window, TokenSource.terminalsFrom_succ]
  rfl

end Run

end PredictiveParsing
