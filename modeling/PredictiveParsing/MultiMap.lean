import Std.Data.ExtTreeMap
import Std.Data.ExtTreeSet
import PredictiveParsing.Iteration

/-! # Maps to sets

A multimap sends keys to finite sets of values. An insertion reports whether it changed the map, and a key can be
present with no value. Two multimaps are equal if they have the same keys and the same values under each. -/

namespace PredictiveParsing

open Std

/-- A finite map from keys to finite sets of values, both in ascending order. -/
structure MultiMap (κ α : Type) [Ord κ] [Ord α] where
  sets : ExtTreeMap κ (ExtTreeSet α)

namespace MultiMap

variable {κ α : Type} [Ord κ] [Ord α]

def empty : MultiMap κ α := ⟨∅⟩

instance : EmptyCollection (MultiMap κ α) := ⟨empty⟩

instance : Inhabited (MultiMap κ α) := ⟨empty⟩

variable [TransOrd κ] [TransOrd α]

instance [LawfulEqOrd κ] [LawfulEqOrd α] : DecidableEq (MultiMap κ α) := fun
  | ⟨m⟩, ⟨n⟩ => decidable_of_iff (m = n) ⟨congrArg mk, fun h => by cases h; rfl⟩

/-- The values of a key that is present. -/
def get? (m : MultiMap κ α) (key : κ) : Option (ExtTreeSet α) := m.sets[key]?

/-- The values of a key, none if it is absent. -/
def get (m : MultiMap κ α) (key : κ) : ExtTreeSet α := (m.get? key).getD ∅

def contains (m : MultiMap κ α) (key : κ) (value : α) : Bool := decide (value ∈ m.get key)

/-- Makes a key present. -/
def touch (m : MultiMap κ α) (key : κ) : MultiMap κ α :=
  if key ∈ m.sets then m else ⟨m.sets.insert key ∅⟩

def touchAll (m : MultiMap κ α) (keys : List κ) : MultiMap κ α := keys.foldl touch m

def insert (m : MultiMap κ α) (key : κ) (value : α) : MultiMap κ α :=
  ⟨m.sets.insert key ((m.get key).insert value)⟩

/-- The insertion together with whether the map was changed by it. -/
def insertReporting (m : MultiMap κ α) (key : κ) (value : α) : MultiMap κ α × Change :=
  (m.insert key value, .ofBool !(m.contains key value))

/-- The keys with their values, everything in ascending order. -/
def toList (m : MultiMap κ α) : List (κ × List α) := m.sets.toList.map fun (key, values) => (key, values.toList)

omit [TransOrd α] in
@[simp] theorem get_empty (key : κ) : (empty : MultiMap κ α).get key = ∅ := by
  simp [get, get?, empty]

theorem get?_insert (m : MultiMap κ α) (key other : κ) (value : α) :
    (m.insert key value).get? other =
      if compare key other = .eq then some ((m.get key).insert value) else m.get? other := by
  simp [insert, get?, ExtTreeMap.getElem?_insert]

variable [LawfulEqOrd κ]

omit [TransOrd α] in
theorem get_touch (m : MultiMap κ α) (key other : κ) : (m.touch key).get other = m.get other := by
  unfold touch
  split
  · rfl
  · rename_i habsent
    simp only [get, get?, ExtTreeMap.getElem?_insert]
    split
    · rename_i heq
      cases LawfulEqOrd.eq_of_compare heq
      simp [ExtTreeMap.getElem?_eq_none habsent]
    · rfl

omit [TransOrd α] in
theorem get_touchAll (m : MultiMap κ α) (keys : List κ) (other : κ) :
    (m.touchAll keys).get other = m.get other := by
  induction keys generalizing m with
  | nil => rfl
  | cons key rest ih =>
      rw [touchAll, List.foldl_cons]
      exact (ih (m.touch key)).trans (get_touch m key other)

theorem mem_get_insert [LawfulEqOrd α] (m : MultiMap κ α) (key other : κ) (value x : α) :
    x ∈ (m.insert key value).get other ↔ (other = key ∧ x = value) ∨ x ∈ m.get other := by
  simp only [get, get?_insert]
  split
  · rename_i heq
    cases LawfulEqOrd.eq_of_compare heq
    simp [ExtTreeSet.mem_insert, @eq_comm _ value x]
  · rename_i hne
    have : other ≠ key := fun h => hne (by rw [h]; exact ReflCmp.compare_self)
    simp [this]

end MultiMap

end PredictiveParsing
