import PredictiveParsing.Dump

/-! # Parse trees with open slots

A node is made with a label and a number of child slots, and its slots are filled from the left. A tree that grows
by insertion takes each new node into the leftmost slot that is open, which is the order in which a leftmost
derivation applies its productions; a tree without open slots gives the node back. -/

namespace PredictiveParsing

/-- A label, a number of slots, and the children that fill the first of them. -/
inductive ParseTree (α : Type) where
  | node (label : α) (arity : Nat) (children : List (ParseTree α))

namespace ParseTree

variable {α : Type}

/-- A node whose slots are all open. -/
def leaf (label : α) (arity : Nat) : ParseTree α := node label arity []

instance [Inhabited α] : Inhabited (ParseTree α) := ⟨leaf default 0⟩

def label : ParseTree α → α
  | node label _ _ => label

def arity : ParseTree α → Nat
  | node _ arity _ => arity

def children : ParseTree α → List (ParseTree α)
  | node _ _ children => children

mutual

/-- Whether every slot of the tree is filled. -/
def isComplete : ParseTree α → Bool
  | node _ arity children => decide (children.length = arity) && allComplete children

/-- Whether every slot of every tree is filled. -/
def allComplete : List (ParseTree α) → Bool
  | [] => true
  | t :: rest => t.isComplete && allComplete rest

end

mutual

/-- The number of nodes. -/
def size : ParseTree α → Nat
  | node _ _ children => 1 + totalSize children

/-- The number of nodes of all trees. -/
def totalSize : List (ParseTree α) → Nat
  | [] => 0
  | t :: rest => t.size + totalSize rest

end

mutual

/-- The labels, that of a node before those of its children. -/
def preorder : ParseTree α → List α
  | node label _ children => label :: preorderAll children

/-- The labels of all trees in order. -/
def preorderAll : List (ParseTree α) → List α
  | [] => []
  | t :: rest => t.preorder ++ preorderAll rest

end

mutual

/-- The number of open slots. -/
def openSlots : ParseTree α → Nat
  | node _ arity children => (arity - children.length) + totalOpenSlots children

/-- The number of open slots of all trees. -/
def totalOpenSlots : List (ParseTree α) → Nat
  | [] => 0
  | t :: rest => t.openSlots + totalOpenSlots rest

end

mutual

/-- The tree with a further one in its leftmost open slot. A tree without open slots gives the further one back. -/
def insert : ParseTree α → ParseTree α → Except (ParseTree α) (ParseTree α)
  | node label arity children, fresh =>
    match insertAmong children fresh with
    | .ok children => .ok (node label arity children)
    | .error fresh =>
      if children.length < arity then .ok (node label arity (children ++ [fresh])) else .error fresh

/-- The trees with a further one in the first open slot among them, if there is one. -/
def insertAmong : List (ParseTree α) → ParseTree α → Except (ParseTree α) (List (ParseTree α))
  | [], fresh => .error fresh
  | t :: rest, fresh =>
    match t.insert fresh with
    | .ok t => .ok (t :: rest)
    | .error fresh =>
      match insertAmong rest fresh with
      | .ok rest => .ok (t :: rest)
      | .error fresh => .error fresh

end

mutual

/-- Whether labels, numbers of slots and children are equal. -/
def beq [BEq α] : ParseTree α → ParseTree α → Bool
  | node label arity children, node label' arity' children' =>
    label == label' && arity == arity' && beqAll children children'

/-- Whether the trees are equal one by one. -/
def beqAll [BEq α] : List (ParseTree α) → List (ParseTree α) → Bool
  | [], [] => true
  | t :: rest, t' :: rest' => t.beq t' && beqAll rest rest'
  | _, _ => false

end

instance [BEq α] : BEq (ParseTree α) := ⟨beq⟩

mutual

/-- The tree as a record, given the text of its labels. -/
def dump (ofLabel : α → Dump) : ParseTree α → Dump
  | node label arity children =>
    .record "Node" [("label", ofLabel label), ("arity", .atom (toString arity)),
      ("children", .list (dumpAll ofLabel children))]

/-- The trees as records. -/
def dumpAll (ofLabel : α → Dump) : List (ParseTree α) → List Dump
  | [] => []
  | t :: rest => t.dump ofLabel :: dumpAll ofLabel rest

end

end ParseTree

end PredictiveParsing
