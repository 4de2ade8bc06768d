import PredictiveParsing.Grammar.Basic
import PredictiveParsing.Iteration
import PredictiveParsing.Log
import PredictiveParsing.LookaheadTable

/-! # FIRST words

Each production contributes one word of at most `k` terminals to the FIRST set of its head. It is found by reading
the right-hand side from the left. A nonterminal is replaced by its first alternative that is not the epsilon
production, and dropped if it has no other. Reading ends when the word is complete or nothing is left to read. A
nonterminal that comes up for replacement again before the word has grown would be replaced for ever; such a grammar
is left recursive. -/

namespace PredictiveParsing

open Std

namespace First

/-- The alternative that replaces a nonterminal, if it has one that is not the epsilon production. -/
def replacement? (g : Grammar) (a : Nonterminal) : Except GrammarError (Option Production) :=
  (g.alternatives? a).map (·.find? fun p => !p.isEpsilon)

/-- The heads that are not being replaced at the present length of the word. -/
def inactive (g : Grammar) (active : List Nonterminal) : List Nonterminal := g.heads.filter (· ∉ active)

theorem mem_heads_of_replacement? {g : Grammar} {a : Nonterminal} {p? : Option Production}
    (h : replacement? g a = .ok p?) : a ∈ g.heads := by
  unfold replacement? Grammar.alternatives? at h
  split at h
  · rename_i hdefines
    exact Grammar.mem_heads.mpr hdefines
  · cases h

theorem length_inactive_lt {g : Grammar} {active : List Nonterminal} {a : Nonterminal} (head : a ∈ g.heads)
    (fresh : a ∉ active) : (inactive g (a :: active)).length < (inactive g active).length := by
  refine length_filter_lt (x := a) ?_ head (by simpa using fresh) (by simp)
  intro b _ hb
  simp only [List.mem_cons, not_or, decide_eq_true_eq] at hb ⊢
  exact hb.2

/-- The word that `word` grows to while `symbols` are read, where the nonterminals of `active` are being replaced and
`word` has not grown since. -/
def extend (g : Grammar) (k : Nat) (active : List Nonterminal) (word : Lookahead) (symbols : List Symbol) :
    Except GrammarError { w : Lookahead // word.length ≤ w.length } :=
  match symbols with
  | [] => .ok ⟨word, Nat.le_refl _⟩
  | .terminal t :: rest =>
    match push : word.push? t k with
    | none => if word.isComplete k then .ok ⟨word, Nat.le_refl _⟩ else extend g k active word rest
    | some longer =>
      have grows : word.length ≤ longer.length := Nat.le_of_lt (by rw [Lookahead.length_of_push? push]; omega)
      if _open : longer.isComplete k then .ok ⟨longer, grows⟩
      else (extend g k [] longer rest).map fun ⟨w, h⟩ => ⟨w, Nat.le_trans grows h⟩
  | .nonterminal a :: rest =>
    match _choice : replacement? g a with
    | .error e => .error e
    | .ok none => extend g k active word rest
    | .ok (some p) =>
      if _fresh : a ∈ active then .error (.leftRecursion a)
      else
        match extend g k (a :: active) word p.symbols with
        | .error e => .error e
        | .ok ⟨inner, grows⟩ =>
          if _open : inner.isComplete k then .ok ⟨inner, grows⟩
          else
            (extend g k (if inner.length = word.length then active else []) inner rest).map fun ⟨w, h⟩ =>
              ⟨w, Nat.le_trans grows h⟩
termination_by (k - word.length, (inactive g active).length, symbols.length)
decreasing_by
  · simp [Prod.lex_def]
  · have := Lookahead.length_of_push? push
    have := Lookahead.length_lt_of_not_isComplete _open
    exact Prod.Lex.left _ _ (by omega)
  · simp [Prod.lex_def]
  · exact Prod.Lex.right _ (Prod.Lex.left _ _ (length_inactive_lt (mem_heads_of_replacement? _choice) _fresh))
  · have := Lookahead.length_lt_of_not_isComplete _open
    by_cases hsame : inner.length = word.length
    · simp [hsame, Prod.lex_def]
    · exact Prod.Lex.left _ _ (by omega)

/-- The word that a production contributes. -/
def ofProduction (g : Grammar) (k : Nat) (p : Production) : Except GrammarError Lookahead :=
  if p.isEpsilon then .ok .empty else (extend g k [p.head] .empty p.symbols).map Subtype.val

end First

/-- The FIRST table and the word of each production. -/
structure FirstSets where
  table : LookaheadTable
  words : ExtTreeMap ProductionId Lookahead

namespace FirstSets

instance : Inhabited FirstSets := ⟨⟨.empty, ∅⟩⟩

/-- The FIRST set of a nonterminal. -/
def get (firsts : FirstSets) (a : Nonterminal) : ExtTreeSet Lookahead := firsts.table.get a

def contains (firsts : FirstSets) (a : Nonterminal) (w : Lookahead) : Bool := firsts.table.contains a w

/-- The word that a production contributes. -/
def word? (firsts : FirstSets) (id : ProductionId) : Option Lookahead := firsts.words[id]?

/-- The table of given words of productions, with an entry for each of the heads. -/
def ofWords (heads : List Nonterminal) (words : List (Production × Lookahead)) : FirstSets where
  table := words.foldl (fun table (p, w) => table.insert p.head w) (MultiMap.empty.touchAll heads)
  words := .ofList (words.map fun (p, w) => (p.id, w))

end FirstSets

namespace Grammar

/-- The FIRST words of all productions, or the error of the first one that fails. -/
def firstSets (g : Grammar) (k : Nat) : Except GrammarError FirstSets := do
  let words ← g.productions.mapM fun p => do return (p, ← First.ofProduction g k p)
  return .ofWords g.heads words

end Grammar

namespace First

/-- The words of productions, as far as they can be computed. -/
def wordEntries (g : Grammar) (k : Nat) : List Production → List LogEntry
  | [] => []
  | p :: rest =>
    match ofProduction g k p with
    | .error _ => []
    | .ok w => ⟨.trace, s!"FIRST({p.text}) = {w.text}"⟩ :: wordEntries g k rest

/-- The words as far as they can be computed, and the table if all can. -/
def logEntries (g : Grammar) (k : Nat) : List LogEntry :=
  wordEntries g k g.productions ++
    match g.firstSets k with
    | .error _ => []
    | .ok firsts => [⟨.debug, s!"FIRST_{k} table:\n" ++ firsts.table.toDoc.render 80⟩]

end First

end PredictiveParsing
