import Mathlib.Logic.Relation
import PredictiveParsing.Proofs.First.Existence

/-! # The search with a stack of frames

The search for the word of a production can keep a stack instead of recurring: each frame is an alternative that is
being read, with the part of it that is left and the length that the word had when it was entered. A nonterminal is
being replaced without growth if there is a frame for it that was entered at the present length. Both ways of writing
the search go through the same symbols, so the one with a stack comes to an end too, with the same word or error. -/

namespace PredictiveParsing

namespace First

/-- An alternative that is being read. -/
structure Frame where
  head : Nonterminal
  rest : List Symbol
  entered : Nat
deriving DecidableEq, Inhabited

/-- The word that has been read so far, and the alternatives that are being read, the innermost one first. -/
structure Search where
  word : Lookahead
  frames : List Frame
deriving DecidableEq, Inhabited

namespace Search

/-- Where the search for the word of a production begins. -/
def start (p : Production) : Search := ⟨.empty, [⟨p.head, p.symbols, 0⟩]⟩

/-- The search after the next symbol of the innermost frame, or after the frame has been left at its end, or what the
search results in. -/
def step (g : Grammar) (k : Nat) (s : Search) : Search ⊕ Except GrammarError Lookahead :=
  match s.frames with
  | [] => .inr (.ok s.word)
  | ⟨_, [], _⟩ :: below => .inl ⟨s.word, below⟩
  | ⟨head, .terminal t :: rest, entered⟩ :: below =>
    let word := (s.word.push? t k).getD s.word
    if word.isComplete k then .inr (.ok word) else .inl ⟨word, ⟨head, rest, entered⟩ :: below⟩
  | ⟨head, .nonterminal a :: rest, entered⟩ :: below =>
    let frames := ⟨head, rest, entered⟩ :: below
    match replacement? g a with
    | .error e => .inr (.error e)
    | .ok none => .inl ⟨s.word, frames⟩
    | .ok (some p) =>
      if ∃ f ∈ frames, f.head = a ∧ f.entered = s.word.length then .inr (.error (.leftRecursion a))
      else .inl ⟨s.word, ⟨a, p.symbols, s.word.length⟩ :: frames⟩

/-- One search comes out of another in any number of steps. -/
def Reaches (g : Grammar) (k : Nat) : Search → Search → Prop :=
  Relation.ReflTransGen fun s t => s.step g k = .inl t

/-- The search comes to an end with a result. -/
def Ends (g : Grammar) (k : Nat) (s : Search) (result : Except GrammarError Lookahead) : Prop :=
  ∃ last, Reaches g k s last ∧ last.step g k = .inr result

variable {g : Grammar} {k : Nat} {s t : Search} {result : Except GrammarError Lookahead}

theorem Ends.of_reaches (h : Reaches g k s t) (hends : t.Ends g k result) : s.Ends g k result := by
  obtain ⟨last, hlast, hresult⟩ := hends
  exact ⟨last, h.trans hlast, hresult⟩

theorem Ends.of_step (h : s.step g k = .inr result) : s.Ends g k result := ⟨s, .refl, h⟩

/-- Nothing comes after the last step. -/
theorem eq_of_reaches (hlast : s.step g k = .inr result) (h : Reaches g k s t) : s = t := by
  rcases h.cases_head with heq | ⟨next, hnext, _⟩
  · exact heq
  · rw [hlast] at hnext
    cases hnext

/-- A search has one result. -/
theorem Ends.unique {result' : Except GrammarError Lookahead} (h : s.Ends g k result) (h' : s.Ends g k result') :
    result = result' := by
  obtain ⟨last, hreaches, hlast⟩ := h
  obtain ⟨last', hreaches', hlast'⟩ := h'
  have hunique : Relator.RightUnique fun s t : Search => s.step g k = .inl t := by
    intro s t u ht hu
    exact Sum.inl.inj (ht.symm.trans hu)
  obtain rfl : last = last' := by
    rcases Relation.ReflTransGen.total_of_right_unique hunique hreaches hreaches' with h | h
    · exact eq_of_reaches hlast h
    · exact (eq_of_reaches hlast' h).symm
  exact Sum.inr.inj (hlast.symm.trans hlast')

/-- What a string on top of the stack comes to: the search ends in an error or with a complete word, or it gets to the
end of the string. -/
def Serves (g : Grammar) (k : Nat) (s : Search) (after : List Frame) : Except GrammarError Lookahead → Prop
  | .error e => s.Ends g k (.error e)
  | .ok w => if w.isComplete k = true then s.Ends g k (.ok w) else Reaches g k s ⟨w, after⟩

theorem serves_of_isComplete {w : Lookahead} {after : List Frame} (complete : w.isComplete k = true) :
    Serves g k s after (.ok w) ↔ s.Ends g k (.ok w) := by rw [Serves, if_pos complete]

theorem serves_of_open {w : Lookahead} {after : List Frame} (hopen : w.isComplete k = false) :
    Serves g k s after (.ok w) ↔ Reaches g k s ⟨w, after⟩ := by rw [Serves, hopen, if_neg Bool.false_ne_true]

theorem Serves.of_reaches {after : List Frame} (h : Reaches g k s t) (hserves : Serves g k t after result) :
    Serves g k s after result := by
  cases result with
  | error e => exact Ends.of_reaches h hserves
  | ok w =>
      cases hw : w.isComplete k with
      | true =>
          rw [serves_of_isComplete hw] at hserves ⊢
          exact .of_reaches h hserves
      | false =>
          rw [serves_of_open hw] at hserves ⊢
          exact h.trans hserves

theorem Serves.of_step {after : List Frame} (h : s.step g k = .inl t) (hserves : Serves g k t after result) :
    Serves g k s after result := hserves.of_reaches (.single h)

end Search

/-- The heads that are being replaced without growth are those of the frames that were entered at the present length,
and no frame was entered at a greater one. -/
structure Stacked (n : Nat) (active : List Nonterminal) (frames : List Frame) : Prop where
  entered_le : ∀ f ∈ frames, f.entered ≤ n
  mem_iff : ∀ a, a ∈ active ↔ ∃ f ∈ frames, f.head = a ∧ f.entered = n

namespace Stacked

variable {n : Nat} {active : List Nonterminal} {frames below : List Frame} {a : Nonterminal} {x : List Symbol}
  {entered : Nat}

theorem read {symbol : Symbol} (h : Stacked n active (⟨a, symbol :: x, entered⟩ :: below)) :
    Stacked n active (⟨a, x, entered⟩ :: below) := by
  obtain ⟨hle, hmem⟩ := h
  simp only [List.forall_mem_cons] at hle
  simp only [List.exists_mem_cons_iff] at hmem
  constructor
  · simpa only [List.forall_mem_cons] using hle
  · simpa only [List.exists_mem_cons_iff] using hmem

theorem enter (h : Stacked n active frames) : Stacked n (a :: active) (⟨a, x, n⟩ :: frames) := by
  constructor
  · exact List.forall_mem_cons.mpr ⟨Nat.le_refl n, h.entered_le⟩
  · intro b
    rw [List.mem_cons, h.mem_iff, List.exists_mem_cons_iff]
    exact or_congr_left ⟨fun heq => ⟨heq.symm, rfl⟩, fun heq => heq.1.symm⟩

/-- As soon as the word has grown nothing is being replaced any more. -/
theorem grow {m : Nat} (h : Stacked n active frames) (lt : n < m) : Stacked m [] frames := by
  constructor
  · exact fun f hf => (h.entered_le f hf).trans (Nat.le_of_lt lt)
  · intro b
    refine iff_of_false List.not_mem_nil ?_
    rintro ⟨f, hf, _, rfl⟩
    exact absurd (h.entered_le f hf) (Nat.not_le_of_lt lt)

theorem grow_or_stay {m : Nat} (h : Stacked n active frames) (le : n ≤ m) :
    Stacked m (if m = n then active else []) frames := by
  split
  · rename_i heq
    rwa [heq]
  · rename_i hne
    exact h.grow (by omega)

section

variable {g : Grammar} {k : Nat} {word : Lookahead} {head : Nonterminal} {rest : List Symbol} {p : Production}
  (h : Stacked word.length active (⟨head, .nonterminal a :: rest, entered⟩ :: below))
  (choice : replacement? g a = .ok (some p))
include h choice

theorem step_of_mem (stale : a ∈ active) :
    Search.step g k ⟨word, ⟨head, .nonterminal a :: rest, entered⟩ :: below⟩ = .inr (.error (.leftRecursion a)) := by
  have hstale := (h.read.mem_iff a).mp stale
  rw [Search.step]
  simp only [choice]
  exact if_pos hstale

theorem step_of_not_mem (fresh : a ∉ active) :
    Search.step g k ⟨word, ⟨head, .nonterminal a :: rest, entered⟩ :: below⟩ =
      .inl ⟨word, ⟨a, p.symbols, word.length⟩ :: ⟨head, rest, entered⟩ :: below⟩ := by
  have hfresh := mt (h.read.mem_iff a).mpr fresh
  rw [Search.step]
  simp only [choice]
  exact if_neg hfresh

end

end Stacked

variable {g : Grammar} {k : Nat}

theorem map_val_map {m n : Nat} (le : m ≤ n) (r : Except GrammarError { w : Lookahead // n ≤ w.length }) :
    (r.map fun w => (⟨w.val, Nat.le_trans le w.property⟩ : { w : Lookahead // m ≤ w.length })).map Subtype.val =
      r.map Subtype.val := by
  cases r <;> rfl

/-- The search with a stack does for the string on top what the recursion does, whatever lies below. -/
theorem serves_extend {active : List Nonterminal} {word : Lookahead} {symbols : List Symbol} {head : Nonterminal}
    {entered : Nat} {below : List Frame} (hopen : word.isComplete k = false)
    (stacked : Stacked word.length active (⟨head, symbols, entered⟩ :: below)) :
    Search.Serves g k ⟨word, ⟨head, symbols, entered⟩ :: below⟩ (⟨head, [], entered⟩ :: below)
      ((extend g k active word symbols).map Subtype.val) := by
  fun_induction extend g k active word symbols generalizing head entered below with
  | case1 active word => exact (Search.serves_of_open hopen).mpr .refl
  | case2 active word t rest push complete =>
      rw [hopen] at complete
      cases complete
  | case3 active word t rest push _ ih =>
      refine Search.Serves.of_step ?_ (ih hopen stacked.read)
      simp [Search.step, push, hopen]
  | case4 active word t rest longer push grows complete =>
      refine (Search.serves_of_isComplete complete).mpr (.of_step ?_)
      simp [Search.step, push, complete]
  | case5 active word t rest longer push grows hlonger ih =>
      have hlt : word.length < longer.length := by
        rw [Lookahead.length_of_push? push]
        exact Nat.lt_succ_self _
      rw [map_val_map grows]
      refine Search.Serves.of_step ?_ (ih (Bool.eq_false_iff.mpr hlonger) (stacked.read.grow hlt))
      simp [Search.step, push, hlonger]
  | case6 active word a rest e choice =>
      refine Search.Ends.of_step ?_
      simp [Search.step, choice]
  | case7 active word a rest choice ih =>
      refine Search.Serves.of_step ?_ (ih hopen stacked.read)
      simp [Search.step, choice]
  | case8 active word a rest p choice stale => exact Search.Ends.of_step (stacked.step_of_mem choice stale)
  | case9 active word a rest p choice fresh e hextend ih =>
      have hinside := ih hopen stacked.read.enter
      rw [hextend] at hinside
      exact hinside.of_step (stacked.step_of_not_mem choice fresh)
  | case10 active word a rest p choice fresh inner grows hextend complete ih =>
      have hinside := ih hopen stacked.read.enter
      rw [hextend] at hinside
      have hends := (Search.serves_of_isComplete complete).mp (hinside.of_step (stacked.step_of_not_mem choice fresh))
      exact (Search.serves_of_isComplete complete).mpr hends
  | case11 active word a rest p choice fresh inner grows hextend hinner ih ih' =>
      have hinside := ih hopen stacked.read.enter
      rw [hextend] at hinside
      have hinner := Bool.eq_false_iff.mpr hinner
      have hend := (Search.serves_of_open hinner).mp (hinside.of_step (stacked.step_of_not_mem choice fresh))
      -- The frame of the replacement is left at its end before what stands behind the nonterminal is read.
      have hbehind : Search.Reaches g k _ ⟨inner, ⟨head, rest, entered⟩ :: below⟩ := hend.tail rfl
      rw [map_val_map grows]
      exact (ih' hinner (stacked.read.grow_or_stay grows)).of_reaches hbehind

variable {p : Production}

/-- For every bound but zero the search with a stack comes to an end, with what the recursion returns. -/
theorem ends_iff (pos : 0 < k) (plain : p.isEpsilon = false) {result : Except GrammarError Lookahead} :
    (Search.start p).Ends g k result ↔ result = ofProduction g k p := by
  have hopen := Lookahead.isComplete_empty pos
  have stacked : Stacked Lookahead.empty.length [p.head] (Search.start p).frames := by
    constructor <;> simp [Search.start, Lookahead.length, Lookahead.empty, eq_comm]
  have hends : (Search.start p).Ends g k (ofProduction g k p) := by
    have hserves := serves_extend (g := g) hopen stacked
    rw [ofProduction, plain, if_neg Bool.false_ne_true]
    revert hserves
    cases (extend g k [p.head] .empty p.symbols).map Subtype.val with
    | error e => exact id
    | ok w =>
        intro hserves
        cases hw : w.isComplete k with
        | true => exact (Search.serves_of_isComplete hw).mp hserves
        | false =>
            -- The only frame is left at its end, and then there is none.
            refine ⟨⟨w, []⟩, ?_, rfl⟩
            exact ((Search.serves_of_open hw).mp hserves).tail rfl
  constructor
  · exact fun h => h.unique hends
  · rintro rfl
    exact hends

end First

end PredictiveParsing
