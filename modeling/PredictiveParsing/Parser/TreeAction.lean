import PredictiveParsing.ParseTree
import PredictiveParsing.Parser.Step

/-! # Actions that build parse trees

Productions are applied in the order of a leftmost derivation, so the node of each one belongs into the leftmost open
slot of the tree that the ones before have built. -/

namespace PredictiveParsing

namespace ParseTree

/-- Puts a node for each production into the tree. It fails with that node if the tree has no open slot. -/
def grow (arity : ProductionId → Nat) : SemanticAction (ParseTree ProductionId) (ParseTree ProductionId)
  | none, id => .ok (some (leaf id (arity id)))
  | some root, id => (root.insert (leaf id (arity id))).map some

end ParseTree

namespace Grammar

/-- The number of nonterminals on the right of a production. -/
def arity (g : Grammar) (id : ProductionId) : Nat := ((g.get? id).map fun p => p.nonterminals.length).getD 0

end Grammar

end PredictiveParsing
