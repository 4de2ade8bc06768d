/-! # Symbols

Terminals, nonterminals and production identifiers are numbers with a kind of their own. Two terminals are
reserved: the epsilon marker, which stands for the empty string as a right-hand side, and the end marker, which
stands behind the last token of every input. A symbol is a terminal or a nonterminal. Each kind is ordered by
number, and terminals come before nonterminals. -/

namespace PredictiveParsing

/-- A terminal of the input alphabet, or one of the two reserved markers. -/
structure Terminal where
  id : Nat
deriving DecidableEq, Inhabited

/-- A symbol that productions replace. -/
structure Nonterminal where
  id : Nat
deriving DecidableEq, Inhabited

/-- The number by which a production is known to semantic actions. -/
structure ProductionId where
  id : Nat
deriving DecidableEq, Inhabited

namespace Terminal

/-- The marker of the empty string. -/
def epsilon : Terminal := ⟨0⟩

/-- The marker behind the last token. -/
def endMarker : Terminal := ⟨1⟩

def isEpsilon (t : Terminal) : Bool := t == epsilon

def isEnd (t : Terminal) : Bool := t == endMarker

def text (t : Terminal) : String :=
  if t.isEpsilon then "ε" else if t.isEnd then "$" else s!"T{t.id}"

instance : Ord Terminal := ⟨compareOn id⟩

instance : Std.TransOrd Terminal := inferInstanceAs (Std.TransCmp (compareOn id))

instance : Std.LawfulEqOrd Terminal where
  eq_of_compare {a b} h := by
    cases a; cases b
    exact congrArg mk (Std.LawfulEqOrd.eq_of_compare (α := Nat) h)

@[simp] theorem isEpsilon_iff {t : Terminal} : t.isEpsilon = true ↔ t = epsilon := by
  simp [isEpsilon]

@[simp] theorem isEnd_iff {t : Terminal} : t.isEnd = true ↔ t = endMarker := by
  simp [isEnd]

@[simp] theorem isEnd_endMarker : endMarker.isEnd = true := rfl

@[simp] theorem isEpsilon_epsilon : epsilon.isEpsilon = true := rfl

@[simp] theorem isEpsilon_endMarker : endMarker.isEpsilon = false := rfl

end Terminal

namespace Nonterminal

def text (a : Nonterminal) : String := s!"NT{a.id}"

instance : Ord Nonterminal := ⟨compareOn id⟩

instance : Std.TransOrd Nonterminal := inferInstanceAs (Std.TransCmp (compareOn id))

instance : Std.LawfulEqOrd Nonterminal where
  eq_of_compare {a b} h := by
    cases a; cases b
    exact congrArg mk (Std.LawfulEqOrd.eq_of_compare (α := Nat) h)

end Nonterminal

namespace ProductionId

def text (p : ProductionId) : String := s!"P{p.id}"

instance : Ord ProductionId := ⟨compareOn id⟩

instance : Std.TransOrd ProductionId := inferInstanceAs (Std.TransCmp (compareOn id))

instance : Std.LawfulEqOrd ProductionId where
  eq_of_compare {a b} h := by
    cases a; cases b
    exact congrArg mk (Std.LawfulEqOrd.eq_of_compare (α := Nat) h)

end ProductionId

/-- A member of a right-hand side. -/
inductive Symbol where
  | terminal (t : Terminal)
  | nonterminal (a : Nonterminal)
deriving DecidableEq, Inhabited

namespace Symbol

instance : Coe Terminal Symbol := ⟨terminal⟩

instance : Coe Nonterminal Symbol := ⟨nonterminal⟩

def terminal? : Symbol → Option Terminal
  | terminal t => some t
  | nonterminal _ => none

def nonterminal? : Symbol → Option Nonterminal
  | terminal _ => none
  | nonterminal a => some a

def isEpsilon : Symbol → Bool
  | terminal t => t.isEpsilon
  | nonterminal _ => false

def isEnd : Symbol → Bool
  | terminal t => t.isEnd
  | nonterminal _ => false

def text : Symbol → String
  | terminal t => t.text
  | nonterminal a => s!"<{a.text}>"

/-- Terminals precede nonterminals; within a kind the number decides. -/
instance : Ord Symbol where
  compare
    | terminal s, terminal t => compare s t
    | terminal _, nonterminal _ => .lt
    | nonterminal _, terminal _ => .gt
    | nonterminal a, nonterminal b => compare a b

instance : Std.TransOrd Symbol where
  eq_swap {x y} := by
    cases x <;> cases y <;> simp [compare] <;> exact Std.OrientedCmp.eq_swap
  isLE_trans {x y z} := by
    cases x <;> cases y <;> cases z <;> simp [compare] <;> exact Std.TransCmp.isLE_trans

instance : Std.LawfulEqOrd Symbol where
  eq_of_compare {x y} h := by
    cases x <;> cases y <;> simp [compare] at h ⊢ <;> exact Std.LawfulEqOrd.eq_of_compare h

@[simp] theorem isEpsilon_iff {symbol : Symbol} : symbol.isEpsilon = true ↔ symbol = terminal .epsilon := by
  cases symbol <;> simp [isEpsilon]

end Symbol

end PredictiveParsing
