import PredictiveParsing.Proofs.First.Sets
import PredictiveParsing.Proofs.Renaming.Grammar

/-! # Nullable nonterminals and FIRST sets of renamed grammars

The sweeps for the nullable nonterminals visit the productions in order, and change the same things at the same
places whatever the numbers are. A right-hand side is read symbol by symbol, and at each symbol the reading goes on in
the same way. So the nullable nonterminals of a renamed grammar are the renamed ones, and so are the FIRST sets or the
error that takes their place. -/

namespace PredictiveParsing

open Std

section Iteration

variable {σ τ α β : Type} {f : σ → τ}

theorem sweep_map {body : σ → α → σ × Change} {body' : τ → β → τ × Change} {rename : α → β}
    (commutes : ∀ s x, body' (f s) (rename x) = (f (body s x).1, (body s x).2)) (s : σ) (xs : List α) :
    sweep body' (f s) (xs.map rename) = (f (sweep body s xs).1, (sweep body s xs).2) := by
  induction xs generalizing s with
  | nil => rfl
  | cons x rest ih => simp only [List.map_cons, sweep, commutes, ih]

theorem settle_map {body : σ → σ × Change} {rank : σ → Nat}
    {decreases : ∀ s, (body s).2 = .changed → rank (body s).1 < rank s} {body' : τ → τ × Change} {rank' : τ → Nat}
    {decreases' : ∀ s, (body' s).2 = .changed → rank' (body' s).1 < rank' s}
    (commutes : ∀ s, body' (f s) = (f (body s).1, (body s).2)) (s : σ) :
    settle body' rank' decreases' (f s) = f (settle body rank decreases s) := by
  fun_induction settle body rank decreases s with
  | case1 s s' h => exact settle_of_unchanged (by rw [commutes, h])
  | case2 s s' h ih =>
      have hbody : body' (f s) = (f s', .changed) := by rw [commutes, h]
      exact (settle_of_changed hbody).trans ih

end Iteration

namespace Nullable

theorem all_rename (ρ : Renaming) (known : ExtTreeSet Nonterminal) (symbols : List Symbol) :
    all (ρ.nonterminals known) (symbols.map ρ.symbol) = all known symbols := by
  rw [all, all, List.all_map]
  congr 1
  funext x
  cases x with
  | terminal t => exact ρ.isEpsilon_terminal t
  | nonterminal a => exact contains_image ρ.nonterminal_injective a

theorem visit_rename (ρ : Renaming) (known : ExtTreeSet Nonterminal) (p : Production) :
    visit (ρ.nonterminals known) (ρ.rule p) = (ρ.nonterminals (visit known p).1, (visit known p).2) := by
  have hhead : (ρ.rule p).head ∈ ρ.nonterminals known ↔ p.head ∈ known :=
    mem_image_of_injective ρ.nonterminal_injective
  have hsymbols : all (ρ.nonterminals known) (ρ.rule p).symbols = all known p.symbols := all_rename ρ known p.symbols
  simp only [visit, hhead, hsymbols]
  split
  · exact Prod.ext (image_insert p.head).symm rfl
  · rfl

end Nullable

namespace First

variable {g : Grammar} {k : Nat} {active : List Nonterminal} {word : Lookahead} {rest : List Symbol}

/-- The word that a word grows to, without its bound. -/
def extended (g : Grammar) (k : Nat) (active : List Nonterminal) (word : Lookahead) (symbols : List Symbol) :
    Except GrammarError Lookahead := (extend g k active word symbols).map Subtype.val

theorem extended_nil : extended g k active word [] = .ok word := by
  rw [extended, extend]
  rfl

theorem extended_terminal (t : Terminal) :
    extended g k active word (.terminal t :: rest) =
      match word.push? t k with
      | none => if word.isComplete k then .ok word else extended g k active word rest
      | some longer => if longer.isComplete k then .ok longer else extended g k [] longer rest := by
  rw [extended, extend]
  split <;> rename_i push <;> simp only [push] <;> split
  · rfl
  · rfl
  · rfl
  · rw [extended]
    cases extend g k [] _ rest <;> rfl

theorem extended_nonterminal (a : Nonterminal) :
    extended g k active word (.nonterminal a :: rest) =
      match replacement? g a with
      | .error e => .error e
      | .ok none => extended g k active word rest
      | .ok (some p) =>
        if a ∈ active then .error (.leftRecursion a)
        else
          match extended g k (a :: active) word p.symbols with
          | .error e => .error e
          | .ok inner =>
            if inner.isComplete k then .ok inner
            else extended g k (if inner.length = word.length then active else []) inner rest := by
  rw [extended, extend]
  split <;> rename_i choice <;> simp only [choice]
  · rfl
  · rfl
  · split
    · rfl
    · simp only [extended]
      cases extend g k (a :: active) word _ with
      | error e => rfl
      | ok inner =>
          by_cases complete : inner.val.isComplete k = true
          · simp only [Except.map, dif_pos complete, if_pos complete]
          · simp only [Except.map, dif_neg complete, if_neg complete]
            cases extend g k (if inner.val.length = word.length then active else []) inner.val rest <;> rfl

theorem extended_renamed_terminal (ρ : Renaming) (t : Terminal) :
    extended g k active (ρ.word word) ((.terminal t :: rest).map ρ.symbol) =
      match word.push? t k with
      | none =>
        if word.isComplete k then .ok (ρ.word word) else extended g k active (ρ.word word) (rest.map ρ.symbol)
      | some longer =>
        if longer.isComplete k then .ok (ρ.word longer) else extended g k [] (ρ.word longer) (rest.map ρ.symbol) := by
  rw [List.map_cons, Numbering.symbol, extended_terminal, ρ.push?_word]
  cases word.push? t k <;> simp only [Option.map_none, Option.map_some, ρ.isComplete_word]

end First

namespace FirstSets

theorem mem_sets_foldl_insert {words : List (Production × Lookahead)} {table : LookaheadTable} {a : Nonterminal} :
    a ∈ (words.foldl (fun table (p, w) => table.insert p.head w) table).sets ↔
      (∃ entry ∈ words, entry.1.head = a) ∨ a ∈ table.sets := by
  induction words generalizing table with
  | nil => simp
  | cons entry rest ih =>
      rw [List.foldl_cons, ih, MultiMap.mem_insert, List.exists_mem_cons_iff, @eq_comm _ a, or_assoc, or_left_comm]

/-- The table of renamed words is the renamed table, if it has entries for the renamed heads. -/
theorem ofWords_rename (ρ : Renaming) {heads heads' : List Nonterminal}
    (renamed : ∀ b, b ∈ heads' ↔ ∃ a ∈ heads, ρ.nonterminal a = b) (words : List (Production × Lookahead)) :
    ofWords heads' (words.map fun entry => (ρ.rule entry.1, ρ.word entry.2)) = ρ.firstSets (ofWords heads words) := by
  have htable : (ofWords heads' (words.map fun entry => (ρ.rule entry.1, ρ.word entry.2))).table =
      ρ.wordTable (ofWords heads words).table := by
    refine MultiMap.eq_relabel ρ.nonterminal_injective (fun b => ?_) fun a => ?_
    · simp only [ofWords, mem_sets_foldl_insert, MultiMap.mem_touchAll, renamed, List.mem_map]
      constructor
      · rintro (⟨_, ⟨entry, mem, rfl⟩, rfl⟩ | ⟨a, ha, rfl⟩ | hempty)
        · exact ⟨entry.1.head, Or.inl ⟨entry, mem, rfl⟩, rfl⟩
        · exact ⟨a, Or.inr (Or.inl ha), rfl⟩
        · exact absurd hempty ExtTreeMap.not_mem_empty
      · rintro ⟨_, ⟨entry, mem, rfl⟩ | ha | hempty, rfl⟩
        · exact Or.inl ⟨_, ⟨entry, mem, rfl⟩, rfl⟩
        · exact Or.inr (Or.inl ⟨_, ha, rfl⟩)
        · exact absurd hempty ExtTreeMap.not_mem_empty
    · apply ExtTreeSet.ext_mem
      intro w
      refine mem_get_ofWords.trans (Iff.trans ?_ mem_image.symm)
      simp only [List.mem_map, Prod.mk.injEq]
      constructor
      · rintro ⟨_, ⟨⟨p, v⟩, mem, rfl, rfl⟩, hhead⟩
        exact ⟨v, mem_get_ofWords.mpr ⟨p, mem, ρ.nonterminal_injective hhead⟩, rfl⟩
      · rintro ⟨v, hv, rfl⟩
        obtain ⟨p, mem, rfl⟩ := mem_get_ofWords.mp hv
        exact ⟨ρ.rule p, ⟨(p, v), mem, rfl, rfl⟩, rfl⟩
  have hwords : (ofWords heads' (words.map fun entry => (ρ.rule entry.1, ρ.word entry.2))).words =
      relabel ρ.production ρ.word (ofWords heads words).words := by
    rw [ofWords, ofWords, relabel_ofList ρ.production_injective, List.map_map, List.map_map]
    rfl
  rw [Numbering.firstSets, ← htable, ← hwords]

end FirstSets

namespace Grammar

namespace Renames

variable {ρ : Renaming} {g g' : Grammar} {k : Nat} (h : g.Renames ρ g')
include h

/-- The nullable nonterminals of a renamed grammar are the renamed ones. -/
theorem nullable_eq : g'.nullable = ρ.nonterminals g.nullable := by
  rw [Grammar.nullable, Grammar.nullable]
  calc
    _ = settle _ _ _ (ρ.nonterminals ∅) := by rw [Numbering.nonterminals, image_empty]
    _ = _ := settle_map (fun known => by rw [h.productions]; exact sweep_map (Nullable.visit_rename ρ) known _) ∅

variable (hg : g.WellFormed) (hg' : g'.WellFormed)
include hg hg'

theorem extended_renamed_nonterminal (active : List Nonterminal) (word : Lookahead) (a : Nonterminal)
    (rest : List Symbol) :
    First.extended g' k (active.map ρ.nonterminal) (ρ.word word) ((.nonterminal a :: rest).map ρ.symbol) =
      match First.replacement? g a with
      | .error e => .error (ρ.grammarError e)
      | .ok none => First.extended g' k (active.map ρ.nonterminal) (ρ.word word) (rest.map ρ.symbol)
      | .ok (some p) =>
        if a ∈ active then .error (.leftRecursion (ρ.nonterminal a))
        else
          match First.extended g' k ((a :: active).map ρ.nonterminal) (ρ.word word) (p.symbols.map ρ.symbol) with
          | .error e => .error e
          | .ok inner =>
            if inner.isComplete k then .ok inner
            else
              First.extended g' k ((if inner.length = word.length then active else []).map ρ.nonterminal) inner
                (rest.map ρ.symbol) := by
  have hactive : ∀ inner : Lookahead, (if inner.length = word.length then active else []).map ρ.nonterminal =
      if inner.length = word.length then active.map ρ.nonterminal else [] := by
    intro inner
    split <;> rfl
  rw [List.map_cons, Numbering.symbol, First.extended_nonterminal, h.replacement?_eq hg hg']
  cases First.replacement? g a with
  | error e => rfl
  | ok p? =>
      cases p? with
      | none => rfl
      | some p =>
          simp only [Numbering.result, Option.map_some, List.mem_map_of_injective ρ.nonterminal_injective,
            List.map_cons, ρ.length_word, hactive]
          rfl

/-- Reading the renamed symbols makes the renamed word grow to the renamed word. What is asked on the way, whether the
word is complete and whether a nonterminal is being replaced, has the same answers. -/
theorem extended_eq (active : List Nonterminal) (word : Lookahead) (symbols : List Symbol) :
    First.extended g' k (active.map ρ.nonterminal) (ρ.word word) (symbols.map ρ.symbol) =
      ρ.result ρ.word (First.extended g k active word symbols) := by
  fun_induction First.extend g k active word symbols with
  | case1 active word =>
      rw [List.map_nil, First.extended_nil, First.extended_nil]
      rfl
  | case2 active word t rest push complete =>
      rw [First.extended_renamed_terminal, First.extended_terminal]
      simp only [push, if_pos complete]
      rfl
  | case3 active word t rest push incomplete ih =>
      rw [First.extended_renamed_terminal, First.extended_terminal]
      simp only [push, if_neg incomplete]
      exact ih
  | case4 active word t rest longer push grows complete =>
      rw [First.extended_renamed_terminal, First.extended_terminal]
      simp only [push, if_pos complete]
      rfl
  | case5 active word t rest longer push grows incomplete ih =>
      rw [First.extended_renamed_terminal, First.extended_terminal]
      simp only [push, if_neg incomplete]
      exact ih
  | case6 active word a rest e choice =>
      rw [h.extended_renamed_nonterminal hg hg', First.extended_nonterminal, choice]
      rfl
  | case7 active word a rest choice ih =>
      rw [h.extended_renamed_nonterminal hg hg', First.extended_nonterminal, choice]
      exact ih
  | case8 active word a rest p choice looped =>
      rw [h.extended_renamed_nonterminal hg hg', First.extended_nonterminal, choice]
      simp only [if_pos looped]
      rfl
  | case9 active word a rest p choice fresh e failed ih =>
      have hfailed : First.extended g k (a :: active) word p.symbols = .error e := by
        rw [First.extended, failed]
        rfl
      rw [h.extended_renamed_nonterminal hg hg', First.extended_nonterminal, choice]
      simp only [if_neg fresh, ih, hfailed, Numbering.result]
  | case10 active word a rest p choice fresh inner grows found complete ih =>
      have hfound : First.extended g k (a :: active) word p.symbols = .ok inner := by
        rw [First.extended, found]
        rfl
      rw [h.extended_renamed_nonterminal hg hg', First.extended_nonterminal, choice]
      simp only [if_neg fresh, ih, hfound, Numbering.result, ρ.isComplete_word, if_pos complete]
  | case11 active word a rest p choice fresh inner grows found incomplete ih ih' =>
      have hfound : First.extended g k (a :: active) word p.symbols = .ok inner := by
        rw [First.extended, found]
        rfl
      rw [h.extended_renamed_nonterminal hg hg', First.extended_nonterminal, choice]
      simp only [if_neg fresh, ih, hfound, Numbering.result, ρ.isComplete_word, if_neg incomplete, ρ.length_word]
      exact ih'

/-- A renamed production contributes the renamed word. -/
theorem ofProduction_eq (p : Production) :
    First.ofProduction g' k (ρ.rule p) = ρ.result ρ.word (First.ofProduction g k p) := by
  rw [First.ofProduction, First.ofProduction, ρ.isEpsilon_rule]
  split
  · rfl
  · exact h.extended_eq hg hg' [p.head] .empty p.symbols

theorem mapM_ofProduction_eq (ps : List Production) :
    (ps.map ρ.rule).mapM (fun p => do return (p, ← First.ofProduction g' k p)) =
      ρ.result (List.map fun entry => (ρ.rule entry.1, ρ.word entry.2))
        (ps.mapM fun p => do return (p, ← First.ofProduction g k p)) := by
  induction ps with
  | nil => rfl
  | cons p rest ih =>
      rw [List.map_cons, List.mapM_cons, List.mapM_cons, ih, h.ofProduction_eq hg hg']
      cases First.ofProduction g k p with
      | error e => rfl
      | ok w =>
          cases rest.mapM fun p => do return (p, ← First.ofProduction g k p) <;> rfl

theorem mem_heads_iff (b : Nonterminal) : b ∈ g'.heads ↔ ∃ a ∈ g.heads, ρ.nonterminal a = b := by
  simp only [mem_heads, h.defines_iff hg hg']

/-- The FIRST sets of a renamed grammar are the renamed ones, or the renamed error. -/
theorem firstSets_eq (k : Nat) : g'.firstSets k = ρ.result ρ.firstSets (g.firstSets k) := by
  rw [Grammar.firstSets, Grammar.firstSets, h.productions, h.mapM_ofProduction_eq hg hg']
  cases g.productions.mapM fun p => do return (p, ← First.ofProduction g k p) with
  | error e => rfl
  | ok words => exact congrArg Except.ok (FirstSets.ofWords_rename ρ (h.mem_heads_iff hg hg') words)

end Renames

end Grammar

end PredictiveParsing
