import PredictiveParsing.Parser.TreeAction
import PredictiveParsing.Proofs.ParseTree.Openings
import PredictiveParsing.Proofs.Parser.Soundness

/-! # The tree of a run

While a parse tree grows, its open slots wait for the nonterminals on the stack, in the same order: whenever the
nonterminal on top is replaced, the node of the production goes into the slot that waits for it, and brings a slot for
each nonterminal that comes onto the stack. So the tree never refuses a node, and when the stack is empty the tree is
complete. -/

namespace PredictiveParsing

namespace Grammar

variable {g : Grammar} {p : Production}

/-- The nonterminals on the right of the production with a given number. -/
def slots (g : Grammar) (id : ProductionId) : List Nonterminal := ((g.get? id).map Production.nonterminals).getD []

/-- The head of the production with a given number. -/
def headOf? (g : Grammar) (id : ProductionId) : Option Nonterminal := (g.get? id).map Production.head

theorem arity_eq (g : Grammar) (id : ProductionId) : g.arity id = (g.slots id).length := by
  rw [arity, slots]
  cases g.get? id <;> rfl

theorem slots_id (hg : g.WellFormed) (mem : p ∈ g.productions) : g.slots p.id = p.nonterminals := by
  rw [slots, hg.get?_id mem]
  rfl

theorem headOf?_id (hg : g.WellFormed) (mem : p ∈ g.productions) : g.headOf? p.id = some p.head := by
  rw [headOf?, hg.get?_id mem]
  rfl

end Grammar

/-- The nonterminals of a string of symbols in order. -/
def pending (symbols : List Symbol) : List Nonterminal := symbols.filterMap Symbol.nonterminal?

theorem pending_append (x y : List Symbol) : pending (x ++ y) = pending x ++ pending y := List.filterMap_append

theorem pending_body {p : Production} (h : p.WellFormed) : pending p.body = p.nonterminals := by
  unfold Production.body
  split
  · rename_i hepsilon
    rw [Production.nonterminals, h.symbols_of_isEpsilon hepsilon]
    rfl
  · rfl

theorem pending_of_all_isEnd {x : List Symbol} (h : x.all Symbol.isEnd = true) : pending x = [] := by
  rw [pending, List.filterMap_eq_nil_iff]
  intro symbol hsymbol
  cases symbol with
  | terminal => rfl
  | nonterminal => cases List.all_eq_true.mp h _ hsymbol

namespace ParseTree

variable {g : Grammar} {root : Option (ParseTree ProductionId)} {ids : List ProductionId} {a : Nonterminal}
  {waiting : List Nonterminal} {p : Production}

/-- Before the first production the start symbol waits for one. Then there is a tree of the productions that have been
applied, the open slots of which are waited for. -/
inductive Fills (g : Grammar) :
    Option (ParseTree ProductionId) → List ProductionId → List Nonterminal → Prop where
  | unplanted : Fills g none [] [g.start]
  | planted {tree : ParseTree ProductionId} (grown : tree.Grown) (fits : tree.Fits g.slots g.headOf?) :
      Fills g (some tree) tree.preorder (tree.openings g.slots)

/-- A production for the first nonterminal that waits goes into the tree. -/
theorem Fills.exists_grow (hg : g.WellFormed) (h : Fills g root ids (a :: waiting)) (mem : p ∈ g.productions)
    (head : p.head = a) : ∃ tree, grow g.arity root p.id = .ok (some tree) ∧
      Fills g (some tree) (ids ++ [p.id]) (p.nonterminals ++ waiting) := by
  have hleaf : (leaf p.id (g.arity p.id)).Fits g.slots g.headOf? := by
    rw [Grammar.arity_eq]
    exact fits_leaf p.id
  generalize hkinds : a :: waiting = kinds at h
  cases h with
  | unplanted =>
      obtain ⟨rfl, rfl⟩ := List.cons.inj hkinds
      refine ⟨leaf p.id (g.arity p.id), rfl, ?_⟩
      rw [List.append_nil, ← Grammar.slots_id hg mem]
      exact .planted (grown_leaf _ _) hleaf
  | @planted tree grown fits =>
      have hincomplete : tree.isComplete = false := by
        rw [← Bool.not_eq_true, ← openSlots_eq_zero_iff grown, ← length_openings fits, ← hkinds]
        exact Nat.succ_ne_zero _
      obtain ⟨tree', hinsert, hgrown, hpreorder, _⟩ := exists_insert (grown_leaf p.id (g.arity p.id)) grown hincomplete
      rcases insert_cases hleaf fits with ⟨hnone, _⟩ | ⟨b, later, _, hopen, hinsert', _, htaken⟩
      · rw [hnone] at hkinds
        cases hkinds
      · obtain rfl := Except.ok.inj (hinsert.symm.trans hinsert')
        obtain ⟨rfl, rfl⟩ := List.cons.inj (hkinds.trans hopen)
        obtain ⟨hfits, hopenings⟩ := htaken ((Grammar.headOf?_id hg mem).trans (congrArg some head))
        rw [openings_leaf, Grammar.slots_id hg mem] at hopenings
        refine ⟨tree', by rw [grow, hinsert]; rfl, ?_⟩
        rw [← hopenings, show tree.preorder ++ [p.id] = tree'.preorder from hpreorder.symm]
        exact .planted hgrown hfits

/-- Unless it still waits for its first production, the tree has as many open slots as are waited for. -/
theorem Fills.exists_tree (h : Fills g root ids waiting) (planted : ids ≠ [] ∨ waiting = []) :
    ∃ tree, root = some tree ∧ tree.Grown ∧ tree.Fits g.slots g.headOf? ∧ tree.preorder = ids ∧
      tree.openSlots = waiting.length := by
  cases h with
  | unplanted =>
      rcases planted with hids | hwaiting
      · exact absurd rfl hids
      · cases hwaiting
  | planted grown fits => exact ⟨_, rfl, grown, fits, rfl, (length_openings fits).symm⟩

end ParseTree

namespace Parser

open ParseTree

variable {parser : Parser (ParseTree ProductionId) (ParseTree ProductionId)} {source : TokenSource}
  {trace trace' : Trace (ParseTree ProductionId)}

/-- The tree of a run holds the productions that have been applied and waits for the nonterminals on the stack. -/
def Waits (parser : Parser (ParseTree ProductionId) (ParseTree ProductionId))
    (trace : Trace (ParseTree ProductionId)) : Prop :=
  Fills parser.grammar trace.run.root trace.history.applied (pending trace.run.stack)

theorem waits_start (parser : Parser (ParseTree ProductionId) (ParseTree ProductionId)) (source : TokenSource) :
    parser.Waits (parser.after source 0) := by
  rw [Waits, after, start, Run.begin_eq]
  exact .unplanted

section

variable (hparser : parser.WellFormed) (grows : parser.action = grow parser.grammar.arity)
include hparser grows

/-- What is predicted for the nonterminal on top goes into the tree. -/
theorem Waits.exists_action (h : parser.Waits trace) {a : Nonterminal} {rest : List Symbol} {p : Production}
    (top : trace.run.stack = .nonterminal a :: rest) (predicted : parser.predict trace.run a = some p) :
    ∃ tree, parser.action trace.run.root p.id = .ok (some tree) ∧
      Fills parser.grammar (some tree) (trace.history.applied ++ [p.id]) (pending (p.body ++ rest)) := by
  obtain ⟨mem, head⟩ := mem_of_predict hparser predicted
  rw [Waits, top] at h
  rw [grows, pending_append, pending_body (hparser.grammar.wellFormed p mem)]
  exact h.exists_grow hparser.grammar mem head

theorem Waits.moves (h : parser.Waits trace) (moves : parser.Moves source trace trace') : parser.Waits trace' := by
  cases moves with
  | pass clean top front more =>
      rw [Waits, top] at h
      exact h
  | consume clean top plain front =>
      rw [Waits, top] at h
      rw [Waits, Run.root_advance, Run.stack_advance]
      exact h
  | expand clean top predicted built =>
      obtain ⟨tree, hbuilt, hfills⟩ := h.exists_action hparser grows top predicted
      obtain rfl := Except.ok.inj (hbuilt.symm.trans built)
      exact hfills

theorem waits_after {n : Nat} (running : (parser.after source n).run.phase = .running) :
    parser.Waits (parser.after source n) :=
  running_induction (waits_start parser source) (fun _ _ h moves => h.moves hparser grows moves) running

/-- The tree never refuses a node. -/
theorem ne_actionFailed (n : Nat) (id : ProductionId) (e : ParseTree ProductionId) :
    (parser.step source (parser.after source n).run).2 ≠ .error (.actionFailed id e) := by
  intro h
  cases hphase : (parser.after source n).run.phase with
  | running =>
      have hwaits := waits_after hparser grows hphase
      have heffect := effect_step parser source hphase
      generalize parser.step source (parser.after source n).run = outcome at *
      cases heffect with
      | rejected top predicted refused =>
          obtain ⟨tree, hbuilt, _⟩ := hwaits.exists_action hparser grows top predicted
          rw [hbuilt] at refused
          cases refused
      | spoiled | exhausted | trailing | accept | pass | consume | mismatch | unpredicted | expand => cases h
  | accepted =>
      rw [step_of_accepted hphase] at h
      cases h
  | failed =>
      rw [step_of_failed hphase] at h
      cases h

/-- An accepted run has left no slot open. -/
theorem exists_tree_of_accepted {n : Nat} (accepted : (parser.after source n).run.phase = .accepted) :
    ∃ tree, (parser.after source n).run.root = some tree ∧ tree.isComplete = true ∧
      tree.preorder = (parser.after source n).history.applied ∧ tree.Fits parser.grammar.slots parser.grammar.headOf? := by
  obtain ⟨m, hrunning, hlast⟩ := exists_before_accepted accepted
  rw [hlast] at accepted ⊢
  obtain ⟨hnext, hclose⟩ := accepted_cases hrunning accepted
  have hpending : pending (parser.after source m).run.stack = [] := by
    by_cases hempty : (parser.after source m).run.stack = []
    · rw [hempty]
      rfl
    · exact pending_of_all_isEnd (hclose hempty).2.2
  have hwaits := waits_after hparser grows hrunning
  obtain ⟨tree, hroot, hgrown, hfits, hpreorder, hslots⟩ := hwaits.exists_tree (Or.inr hpending)
  rw [hpending] at hslots
  rw [hnext]
  exact ⟨tree, hroot, (openSlots_eq_zero_iff hgrown).mp hslots, hpreorder, hfits⟩

end

variable {g : Grammar} {k : Nat}

/-- A run whose action grows a tree never fails because of it. The open slots of the tree are as many as the
nonterminals on the stack, and once the run is accepted the tree is complete, holds the productions in the order in
which they have been applied, and has in each slot a production for the nonterminal at its place. -/
theorem fills_tree (constructed : g.Constructed) (made : ofGrammar g (grow g.arity) k = .ok parser)
    (source : TokenSource) (n : Nat) :
    let trace := parser.after source n
    (∀ id e, (parser.step source trace.run).2 ≠ .error (.actionFailed id e)) ∧
    (trace.run.phase = .running → trace.history.applied ≠ [] →
      ∃ tree, trace.run.root = some tree ∧ tree.openSlots = (trace.run.stack.filterMap Symbol.nonterminal?).length) ∧
    (trace.run.phase = .accepted →
      ∃ tree, trace.run.root = some tree ∧ tree.isComplete = true ∧ tree.preorder = trace.history.applied ∧
        tree.Fits g.slots g.headOf?) := by
  have hparser := wellFormed_of_ofGrammar constructed made
  obtain ⟨table, _, rfl⟩ := ofGrammar_eq_ok_iff.mp made
  refine ⟨ne_actionFailed hparser rfl n, fun running applied => ?_, exists_tree_of_accepted hparser rfl⟩
  have hwaits := waits_after hparser rfl running
  obtain ⟨tree, hroot, _, _, _, hslots⟩ := hwaits.exists_tree (Or.inl applied)
  exact ⟨tree, hroot, hslots⟩

theorem nested_tree_filled :
    let parser : Parser _ _ := ⟨.nested, Grammar.nestedTable, grow Grammar.nested.arity⟩
    let trace := parser.after (.ofList [some ⟨2⟩, some ⟨3⟩]) 6
    ∃ tree, trace.run.root = some tree ∧ tree.isComplete = true ∧ tree.preorder = [⟨0⟩, ⟨1⟩, ⟨2⟩] ∧
      tree.Fits Grammar.nested.slots Grammar.nested.headOf? := by
  have hmade : ofGrammar .nested (grow Grammar.nested.arity) 1 =
      .ok (⟨.nested, Grammar.nestedTable, grow Grammar.nested.arity⟩ : Parser _ _) :=
    ofGrammar_eq_ok_iff.mpr ⟨_, Grammar.table_nested, rfl⟩
  exact (fills_tree Grammar.constructed_nested hmade (.ofList [some ⟨2⟩, some ⟨3⟩]) 6).2.2 rfl

end Parser

end PredictiveParsing
