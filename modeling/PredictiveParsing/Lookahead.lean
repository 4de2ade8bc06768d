import PredictiveParsing.Symbol

/-! # Lookahead words

A lookahead is a word of terminals that FIRST and FOLLOW collect and by which a predictive table is searched. It
holds no epsilon marker, and the end marker only as its last terminal. Under a bound `k` a word is complete if
nothing can be appended to it any more, either because it has `k` terminals or because it has ended; a word that is
not complete stands for an exact remainder. -/

namespace PredictiveParsing

/-- A word of terminals, ordered lexicographically. -/
structure Lookahead where
  terminals : List Terminal
deriving DecidableEq, Inhabited

namespace Lookahead

/-- The terminals of a list that count: no epsilon marker, and nothing behind the first end marker. -/
def clean : List Terminal → List Terminal
  | [] => []
  | t :: rest => if t.isEpsilon then clean rest else if t.isEnd then [t] else t :: clean rest

def ofTerminals (terminals : List Terminal) : Lookahead := ⟨clean terminals⟩

/-- The word of the empty derivation. -/
def empty : Lookahead := ⟨[]⟩

instance : EmptyCollection Lookahead := ⟨empty⟩

/-- No epsilon marker, and the end marker at most as the last terminal. -/
def WellFormed (w : Lookahead) : Prop :=
  (∀ t ∈ w.terminals, t ≠ .epsilon) ∧ ∀ t ∈ w.terminals.dropLast, t ≠ .endMarker

instance (w : Lookahead) : Decidable w.WellFormed := by unfold WellFormed; infer_instance

def length (w : Lookahead) : Nat := w.terminals.length

def isEmpty (w : Lookahead) : Bool := w.terminals.isEmpty

def first? (w : Lookahead) : Option Terminal := w.terminals.head?

/-- Whether the word ends with the end marker. -/
def isTerminated (w : Lookahead) : Bool := w.terminals.getLast?.any Terminal.isEnd

/-- Whether nothing can be appended under the bound `k`. -/
def isComplete (w : Lookahead) (k : Nat) : Bool := decide (k ≤ w.length) || w.isTerminated

/-- The word with `t` behind it, unless it is complete or `t` is the epsilon marker. -/
def push? (w : Lookahead) (t : Terminal) (k : Nat) : Option Lookahead :=
  if t.isEpsilon || w.isComplete k then none else some ⟨w.terminals ++ [t]⟩

/-- The first word followed by as much of the second as the bound `k` leaves room for. -/
def concat (u v : Lookahead) (k : Nat) : Lookahead :=
  if u.isComplete k then u else ⟨u.terminals ++ v.terminals.take (k - u.length)⟩

/-- The first `n` terminals. -/
def truncate (w : Lookahead) (n : Nat) : Lookahead := ⟨w.terminals.take n⟩

def isPrefixOf (w : Lookahead) (terminals : List Terminal) : Bool := w.terminals.isPrefixOf terminals

def text (w : Lookahead) : String :=
  if w.isEmpty then "(ε)" else "(" ++ ", ".intercalate (w.terminals.map Terminal.text) ++ ")"

instance : Ord Lookahead := ⟨compareOn terminals⟩

instance : Std.TransOrd Lookahead := inferInstanceAs (Std.TransCmp (compareOn terminals))

instance : Std.LawfulEqOrd Lookahead where
  eq_of_compare {u v} h := by
    cases u; cases v
    exact congrArg mk (Std.LawfulEqOrd.eq_of_compare (α := List Terminal) h)

@[simp] theorem length_truncate (w : Lookahead) (n : Nat) : (w.truncate n).length = min n w.length := by
  simp [truncate, length]

theorem length_of_push? {w w' : Lookahead} {t : Terminal} {k : Nat} (h : w.push? t k = some w') :
    w'.length = w.length + 1 := by
  unfold push? at h
  split at h
  · cases h
  · cases h
    simp [length]

theorem length_lt_of_not_isComplete {w : Lookahead} {k : Nat} (h : ¬ w.isComplete k = true) : w.length < k := by
  simp only [isComplete, Bool.or_eq_true, decide_eq_true_eq, not_or, Nat.not_le] at h
  exact h.1

theorem length_concat_le (u v : Lookahead) (k : Nat) : (u.concat v k).length ≤ max u.length k := by
  unfold concat
  split
  · exact Nat.le_max_left _ _
  · simp only [length, List.length_append, List.length_take]
    omega

end Lookahead

end PredictiveParsing
