import PredictiveParsing.Proofs.Grammar.Derivation
import PredictiveParsing.Proofs.Grammar.Leftmost

/-! # Left recursion

A nonterminal is left recursive if it can be rewritten to a string that starts with itself. The order of the
replacements does not matter for this: whatever stood in front of the symbol that comes first in the end has vanished,
so replacements of the first symbol alone lead there as well. A left recursion is thus given by a list of productions,
and it makes sense to ask which productions it takes. -/

namespace PredictiveParsing

namespace Grammar

/-- Replacing the first symbol, always by productions of one kind, leads to a nonterminal in front. -/
inductive Leads (g : Grammar) (P : Production → Prop) : List Symbol → Nonterminal → Prop where
  | here (a : Nonterminal) (x : List Symbol) : Leads g P (.nonterminal a :: x) a
  | replace {p : Production} {x : List Symbol} {a : Nonterminal} (mem : p ∈ g.productions) (kind : P p)
      (rest : Leads g P (p.body ++ x) a) : Leads g P (.nonterminal p.head :: x) a

/-- A leftmost derivation leads from a nonterminal to a string that starts with it. Its first production can be any
alternative, the ones behind are of one kind. -/
def LeftRecursiveBy (g : Grammar) (P : Production → Prop) (a : Nonterminal) : Prop :=
  ∃ p ps y, (∀ q ∈ p :: ps, q ∈ g.productions) ∧ (∀ q ∈ ps, P q) ∧
    deriveLeftmost (p :: ps) [.nonterminal a] = some (.nonterminal a :: y)

variable {g : Grammar} {P : Production → Prop} {a : Nonterminal} {p : Production} {ps : List Production}
  {x y before after : List Symbol}

namespace Leads

theorem exists_deriveLeftmost (h : g.Leads P x a) :
    ∃ ps y, (∀ q ∈ ps, q ∈ g.productions ∧ P q) ∧ deriveLeftmost ps x = some (.nonterminal a :: y) := by
  induction h with
  | here a x => exact ⟨[], x, by simp, rfl⟩
  | @replace p x a mem kind _ ih =>
      obtain ⟨ps, y, hps, hderive⟩ := ih
      refine ⟨p :: ps, y, List.forall_mem_cons.mpr ⟨⟨mem, kind⟩, hps⟩, ?_⟩
      rw [deriveLeftmost_cons, replaceLeftmost, if_pos rfl]
      exact hderive

theorem of_deriveLeftmost (mem : ∀ q ∈ ps, q ∈ g.productions ∧ P q)
    (h : deriveLeftmost ps x = some (.nonterminal a :: y)) : g.Leads P x a := by
  induction ps generalizing x with
  | nil =>
      obtain rfl := Option.some.inj h
      exact .here a y
  | cons p rest ih =>
      obtain ⟨⟨hp, kind⟩, hrest⟩ := List.forall_mem_cons.mp mem
      rw [deriveLeftmost_cons, Option.bind_eq_some_iff] at h
      obtain ⟨next, hnext, h⟩ := h
      obtain ⟨u, tail, rfl, rfl⟩ := exists_of_replaceLeftmost hnext
      cases u with
      | nil => exact .replace hp kind (ih hrest h)
      | cons t u =>
          -- A terminal in front would still be there at the end.
          rw [deriveLeftmost_terminals, Option.map_eq_some_iff] at h
          obtain ⟨_, _, hend⟩ := h
          cases hend

/-- A replacement anywhere can be put off until its nonterminal comes first. -/
theorem of_replace (mem : p ∈ g.productions) (kind : P p) (h : g.Leads P (before ++ (p.body ++ after)) a) :
    g.Leads P (before ++ .nonterminal p.head :: after) a := by
  generalize hx : before ++ (p.body ++ after) = x at h
  induction h generalizing before with
  | here a tail =>
      cases before with
      | nil =>
          refine .replace mem kind ?_
          rw [← List.nil_append (p.body ++ after), hx]
          exact .here a tail
      | cons symbol before =>
          obtain ⟨rfl, _⟩ := List.cons.inj hx
          exact .here a _
  | @replace q tail a hq hkind rest ih =>
      cases before with
      | nil =>
          refine .replace mem kind ?_
          rw [← List.nil_append (p.body ++ after), hx]
          exact .replace hq hkind rest
      | cons symbol before =>
          obtain ⟨rfl, htail⟩ := List.cons.inj hx
          have hrest : g.Leads P (q.body ++ before ++ .nonterminal p.head :: after) a := by
            apply ih
            rw [List.append_assoc, ← htail]
            rfl
          rw [List.append_assoc] at hrest
          exact .replace hq hkind hrest

/-- Only the productions of other nonterminals need to be of the kind. -/
theorem of_kind (h : g.Leads (fun _ => True) x a) (kind : ∀ q ∈ g.productions, q.head ≠ a → P q) : g.Leads P x a := by
  induction h with
  | here a x => exact .here a x
  | @replace p x a mem _ _ ih =>
      by_cases hhead : p.head = a
      · rw [hhead]
        exact .here a x
      · exact .replace mem (kind p mem hhead) (ih kind)

theorem of_derives (h : g.Derives x (.nonterminal a :: y)) : g.Leads (fun _ => True) x a := by
  generalize hz : Symbol.nonterminal a :: y = z at h
  induction h with
  | refl => exact hz ▸ .here a y
  | head first _ ih =>
      cases first with
      | replace mem before after => exact of_replace mem trivial (ih hz)

end Leads

/-- The first production of a left recursion is applied to the nonterminal alone. -/
theorem leftRecursiveBy_iff : g.LeftRecursiveBy P a ↔ ∃ p ∈ g.productions, p.head = a ∧ g.Leads P p.body a := by
  constructor
  · rintro ⟨p, ps, y, mem, kind, h⟩
    obtain ⟨hp, hps⟩ := List.forall_mem_cons.mp mem
    rw [deriveLeftmost_cons, Option.bind_eq_some_iff] at h
    obtain ⟨next, hnext, h⟩ := h
    rw [replaceLeftmost, Option.ite_none_right_eq_some, List.append_nil] at hnext
    obtain ⟨rfl, hnext⟩ := hnext
    obtain rfl := Option.some.inj hnext
    exact ⟨p, hp, rfl, .of_deriveLeftmost (fun q hq => ⟨hps q hq, kind q hq⟩) h⟩
  · rintro ⟨p, hp, rfl, h⟩
    obtain ⟨ps, y, hps, hderive⟩ := h.exists_deriveLeftmost
    refine ⟨p, ps, y, List.forall_mem_cons.mpr ⟨hp, fun q hq => (hps q hq).1⟩, fun q hq => (hps q hq).2, ?_⟩
    rw [deriveLeftmost_cons, replaceLeftmost, if_pos rfl, List.append_nil]
    exact hderive

theorem LeftRecursiveBy.leftRecursive (h : g.LeftRecursiveBy P a) : g.LeftRecursive a := by
  obtain ⟨p, hp, rfl, hleads⟩ := leftRecursiveBy_iff.mp h
  obtain ⟨ps, y, hps, hderive⟩ := hleads.exists_deriveLeftmost
  have hfirst := Rewrites.replace hp [] []
  rw [List.nil_append, List.nil_append, List.append_nil] at hfirst
  exact ⟨y, p.body, hfirst, derives_of_deriveLeftmost (fun q hq => (hps q hq).1) hderive⟩

/-- Every left recursion can be had by replacing the first symbol alone, and then need not come back to its
nonterminal on the way. -/
theorem LeftRecursive.leftRecursiveBy (h : g.LeftRecursive a) (kind : ∀ q ∈ g.productions, q.head ≠ a → P q) :
    g.LeftRecursiveBy P a := by
  obtain ⟨y, next, hfirst, hderives⟩ := h
  generalize hx : [Symbol.nonterminal a] = x at hfirst
  cases hfirst with
  | @replace p mem before after =>
      obtain ⟨rfl, htail⟩ | ⟨_, _, htail⟩ := List.cons_eq_append_iff.mp hx
      · obtain ⟨ha, rfl⟩ := List.cons.inj htail
        obtain rfl := Symbol.nonterminal.inj ha
        rw [List.nil_append, List.append_nil] at hderives
        exact leftRecursiveBy_iff.mpr ⟨p, mem, rfl, (Leads.of_derives hderives).of_kind kind⟩
      · simp at htail

end Grammar

end PredictiveParsing
