import PredictiveParsing.Grammar.Basic

/-! # Derivations

A string of symbols is rewritten by replacing one of its nonterminals by the body of a production, where the body of
an epsilon production is empty. Derivability is closed under context and under concatenation. A leftmost derivation
always replaces the first nonterminal, and is determined by the productions that it applies. -/

namespace PredictiveParsing

namespace Grammar

/-- One nonterminal is replaced by the body of one of its productions. -/
inductive Rewrites (g : Grammar) : List Symbol → List Symbol → Prop where
  | replace {p : Production} (mem : p ∈ g.productions) (before after : List Symbol) :
      Rewrites g (before ++ .nonterminal p.head :: after) (before ++ (p.body ++ after))

/-- Any number of replacements. -/
inductive Derives (g : Grammar) : List Symbol → List Symbol → Prop where
  | refl (x : List Symbol) : Derives g x x
  | head {x y z : List Symbol} (first : g.Rewrites x y) (rest : Derives g y z) : Derives g x z

/-- At least one replacement. -/
def DerivesProperly (g : Grammar) (x z : List Symbol) : Prop := ∃ y, g.Rewrites x y ∧ g.Derives y z

/-- Whether a nonterminal can be rewritten to a string that starts with itself. -/
def LeftRecursive (g : Grammar) (a : Nonterminal) : Prop :=
  ∃ y, g.DerivesProperly [.nonterminal a] (.nonterminal a :: y)

/-- The first nonterminal replaced by the body of a production for it. -/
def replaceLeftmost (p : Production) : List Symbol → Option (List Symbol)
  | [] => none
  | .terminal t :: rest => (replaceLeftmost p rest).map (.terminal t :: ·)
  | .nonterminal a :: rest => if a = p.head then some (p.body ++ rest) else none

/-- The string that a leftmost derivation by given productions reaches. -/
def deriveLeftmost (ps : List Production) (x : List Symbol) : Option (List Symbol) :=
  ps.foldlM (fun x p => replaceLeftmost p x) x

variable {g : Grammar} {x y z : List Symbol}

namespace Rewrites

theorem append_left (u : List Symbol) (h : g.Rewrites x y) : g.Rewrites (u ++ x) (u ++ y) := by
  cases h with
  | replace mem before after =>
      rw [← List.append_assoc, ← List.append_assoc]
      exact .replace mem (u ++ before) after

theorem append_right (u : List Symbol) (h : g.Rewrites x y) : g.Rewrites (x ++ u) (y ++ u) := by
  cases h with
  | replace mem before after =>
      rw [List.append_assoc, List.append_assoc, List.append_assoc, List.cons_append]
      exact .replace mem before (after ++ u)

end Rewrites

namespace Derives

theorem trans (h : g.Derives x y) (h' : g.Derives y z) : g.Derives x z := by
  induction h with
  | refl x => exact h'
  | head first _ ih => exact .head first (ih h')

theorem single (h : g.Rewrites x y) : g.Derives x y := .head h (.refl y)

theorem append_left (u : List Symbol) (h : g.Derives x y) : g.Derives (u ++ x) (u ++ y) := by
  induction h with
  | refl x => exact .refl _
  | head first _ ih => exact .head (first.append_left u) ih

theorem append_right (u : List Symbol) (h : g.Derives x y) : g.Derives (x ++ u) (y ++ u) := by
  induction h with
  | refl x => exact .refl _
  | head first _ ih => exact .head (first.append_right u) ih

theorem append {x' y' : List Symbol} (h : g.Derives x y) (h' : g.Derives x' y') :
    g.Derives (x ++ x') (y ++ y') :=
  (h.append_right x').trans (h'.append_left y)

instance : Trans g.Derives g.Derives g.Derives := ⟨trans⟩

end Derives

theorem rewrites_of_replaceLeftmost {p : Production} (mem : p ∈ g.productions)
    (h : replaceLeftmost p x = some y) : g.Rewrites x y := by
  induction x generalizing y with
  | nil => cases h
  | cons symbol rest ih =>
      cases symbol with
      | terminal t =>
          obtain ⟨tail, htail, rfl⟩ := Option.map_eq_some_iff.mp h
          exact (ih htail).append_left [.terminal t]
      | nonterminal a =>
          rw [replaceLeftmost] at h
          split at h
          · rename_i ha
            cases h
            rw [ha]
            exact .replace mem [] rest
          · cases h

/-- A leftmost derivation is a derivation. -/
theorem derives_of_deriveLeftmost {ps : List Production} (mem : ∀ p ∈ ps, p ∈ g.productions)
    (h : deriveLeftmost ps x = some y) : g.Derives x y := by
  induction ps generalizing x with
  | nil =>
      cases h
      exact .refl _
  | cons p rest ih =>
      rw [deriveLeftmost, List.foldlM_cons] at h
      obtain ⟨next, hnext, h⟩ := Option.bind_eq_some_iff.mp h
      exact .head (rewrites_of_replaceLeftmost (mem p List.mem_cons_self) hnext)
        (ih (fun q hq => mem q (List.mem_cons_of_mem p hq)) h)

end Grammar

end PredictiveParsing
