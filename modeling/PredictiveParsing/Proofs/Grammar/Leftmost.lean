import PredictiveParsing.Grammar.Derivation
import PredictiveParsing.Proofs.Grammar.Invariant

/-! # Leftmost derivations

A leftmost derivation is given by the numbers of the productions that it applies, one after the other, each to the
first nonterminal. Whatever terminals stand in front take no part in it. Every word of terminals that can be derived
at all has a leftmost derivation; the proof goes through a reading of the word from the left, in which a terminal is
read and a nonterminal is replaced. -/

namespace PredictiveParsing

namespace Grammar

/-- The first nonterminal replaced by the body of the production with a given number. -/
def replaceById (g : Grammar) (x : List Symbol) (id : ProductionId) : Option (List Symbol) :=
  (g.get? id).bind (replaceLeftmost · x)

/-- The string that the leftmost derivation with given production numbers reaches. -/
def deriveByIds (g : Grammar) (ids : List ProductionId) (x : List Symbol) : Option (List Symbol) :=
  ids.foldlM g.replaceById x

/-- A string of symbols spells a word if reading terminals and replacing nonterminals from the left yields it. -/
inductive Spells (g : Grammar) : List Symbol → List Terminal → Prop where
  | nil : Spells g [] []
  | terminal {x : List Symbol} {w : List Terminal} (t : Terminal) (rest : Spells g x w) :
      Spells g (.terminal t :: x) (t :: w)
  | nonterminal {p : Production} {x : List Symbol} {w : List Terminal} (mem : p ∈ g.productions)
      (rest : Spells g (p.body ++ x) w) : Spells g (.nonterminal p.head :: x) w

variable {g : Grammar} {p : Production} {x y z : List Symbol} {w : List Terminal}

theorem replaceLeftmost_terminals (u : List Terminal) (x : List Symbol) :
    replaceLeftmost p (u.map .terminal ++ x) = (replaceLeftmost p x).map (u.map .terminal ++ ·) := by
  induction u with
  | nil => simp
  | cons t rest ih =>
      rw [List.map_cons, List.cons_append, replaceLeftmost, ih, Option.map_map]
      rfl

theorem replaceLeftmost_head (u : List Terminal) (rest : List Symbol) :
    replaceLeftmost p (u.map .terminal ++ .nonterminal p.head :: rest) = some (u.map .terminal ++ (p.body ++ rest)) := by
  rw [replaceLeftmost_terminals, replaceLeftmost, if_pos rfl, Option.map_some]

/-- What is replaced is the head of the production, behind terminals only. -/
theorem exists_of_replaceLeftmost (h : replaceLeftmost p x = some y) :
    ∃ (u : List Terminal) (rest : List Symbol),
      x = u.map .terminal ++ .nonterminal p.head :: rest ∧ y = u.map .terminal ++ (p.body ++ rest) := by
  induction x generalizing y with
  | nil => cases h
  | cons symbol tail ih =>
      cases symbol with
      | terminal t =>
          rw [replaceLeftmost, Option.map_eq_some_iff] at h
          obtain ⟨z, hz, rfl⟩ := h
          obtain ⟨u, rest, rfl, rfl⟩ := ih hz
          exact ⟨t :: u, rest, rfl, rfl⟩
      | nonterminal a =>
          rw [replaceLeftmost] at h
          split at h
          · rename_i ha
            cases h
            exact ⟨[], tail, by rw [ha]; rfl, rfl⟩
          · cases h

/-- Terminals in front of a string stand in front of its first nonterminal. -/
theorem exists_of_terminals_append {u v : List Terminal} {a : Nonterminal} {rest : List Symbol}
    (h : u.map Symbol.terminal ++ x = v.map .terminal ++ .nonterminal a :: rest) :
    ∃ s, v = u ++ s ∧ x = s.map .terminal ++ .nonterminal a :: rest := by
  induction u generalizing v with
  | nil => exact ⟨v, rfl, h⟩
  | cons t u ih =>
      cases v with
      | nil => cases h
      | cons s v =>
          obtain ⟨hfirst, hlater⟩ := List.cons.inj h
          obtain ⟨tail, rfl, hx⟩ := ih hlater
          obtain rfl : t = s := Symbol.terminal.inj hfirst
          exact ⟨tail, rfl, hx⟩

theorem exists_of_terminals_eq {u v : List Terminal} (h : u.map Symbol.terminal ++ x = v.map .terminal) :
    ∃ s, v = u ++ s ∧ x = s.map .terminal := by
  obtain ⟨first, s, rfl, hfirst, hs⟩ := List.map_eq_append_iff.mp h.symm
  rw [List.map_inj_right fun _ _ => Symbol.terminal.inj] at hfirst
  exact ⟨s, by rw [hfirst], hs.symm⟩

theorem terminals_nonterminal_inj {u v : List Terminal} {a b : Nonterminal} {rest later : List Symbol}
    (h : u.map Symbol.terminal ++ .nonterminal a :: rest = v.map .terminal ++ .nonterminal b :: later) :
    u = v ∧ a = b ∧ rest = later := by
  obtain ⟨s, rfl, htail⟩ := exists_of_terminals_append h
  cases s with
  | nil =>
      obtain ⟨hsymbol, hrest⟩ := List.cons.inj htail
      exact ⟨(List.append_nil u).symm, Symbol.nonterminal.inj hsymbol, hrest⟩
  | cons t s => cases htail

theorem deriveLeftmost_cons (p : Production) (ps : List Production) (x : List Symbol) :
    deriveLeftmost (p :: ps) x = (replaceLeftmost p x).bind (deriveLeftmost ps) := List.foldlM_cons

theorem deriveLeftmost_terminals (ps : List Production) (u : List Terminal) (x : List Symbol) :
    deriveLeftmost ps (u.map .terminal ++ x) = (deriveLeftmost ps x).map (u.map .terminal ++ ·) := by
  induction ps generalizing x with
  | nil => rfl
  | cons p rest ih =>
      rw [deriveLeftmost_cons, deriveLeftmost_cons, replaceLeftmost_terminals]
      cases replaceLeftmost p x with
      | none => rfl
      | some next => exact ih next

namespace Spells

theorem terminals (w : List Terminal) : g.Spells (w.map .terminal) w := by
  induction w with
  | nil => exact .nil
  | cons t rest ih => exact .terminal t ih

theorem eq_of_terminals {u : List Terminal} (h : g.Spells (u.map .terminal) w) : w = u := by
  induction u generalizing w with
  | nil => cases h; rfl
  | cons t u ih =>
      cases h with
      | terminal _ rest => rw [ih rest]

theorem exists_of_nonterminal {a : Nonterminal} (h : g.Spells (.nonterminal a :: x) w) :
    ∃ p ∈ g.productions, p.head = a ∧ g.Spells (p.body ++ x) w := by
  generalize hx : Symbol.nonterminal a :: x = z at h
  cases h with
  | nil => cases hx
  | terminal => cases hx
  | @nonterminal p tail w mem rest =>
      obtain ⟨ha, rfl⟩ := List.cons.inj hx
      exact ⟨p, mem, (Symbol.nonterminal.inj ha).symm, rest⟩

/-- Two strings one after the other spell their words one after the other. -/
theorem exists_of_append (h : g.Spells (x ++ y) w) : ∃ u v, w = u ++ v ∧ g.Spells x u ∧ g.Spells y v := by
  generalize hz : x ++ y = z at h
  induction h generalizing x with
  | nil =>
      obtain ⟨rfl, rfl⟩ := List.append_eq_nil_iff.mp hz
      exact ⟨[], [], rfl, .nil, .nil⟩
  | @terminal tail w t rest ih =>
      rcases List.append_eq_cons_iff.mp hz with ⟨rfl, rfl⟩ | ⟨x, rfl, rfl⟩
      · exact ⟨[], t :: w, rfl, .nil, .terminal t rest⟩
      · obtain ⟨u, v, rfl, hx, hy⟩ := ih rfl
        exact ⟨t :: u, v, rfl, .terminal t hx, hy⟩
  | @nonterminal p tail w mem rest ih =>
      rcases List.append_eq_cons_iff.mp hz with ⟨rfl, rfl⟩ | ⟨x, rfl, rfl⟩
      · exact ⟨[], w, rfl, .nil, .nonterminal mem rest⟩
      · obtain ⟨u, v, rfl, hx, hy⟩ := ih (List.append_assoc _ _ _)
        exact ⟨u, v, rfl, .nonterminal mem hx, hy⟩

/-- A replacement anywhere can be put off until its nonterminal comes first. -/
theorem of_replace (mem : p ∈ g.productions) {before after : List Symbol}
    (h : g.Spells (before ++ (p.body ++ after)) w) : g.Spells (before ++ .nonterminal p.head :: after) w := by
  generalize hx : before ++ (p.body ++ after) = x at h
  induction h generalizing before with
  | nil =>
      obtain ⟨rfl, hbody⟩ := List.append_eq_nil_iff.mp hx
      exact .nonterminal mem (by rw [hbody]; exact .nil)
  | @terminal tail w t rest ih =>
      cases before with
      | nil =>
          refine .nonterminal mem ?_
          rw [← List.nil_append (p.body ++ after), hx]
          exact .terminal t rest
      | cons symbol before =>
          obtain ⟨rfl, htail⟩ := List.cons.inj hx
          exact .terminal t (ih htail)
  | @nonterminal q tail w hq rest ih =>
      cases before with
      | nil =>
          refine .nonterminal mem ?_
          rw [← List.nil_append (p.body ++ after), hx]
          exact .nonterminal hq rest
      | cons symbol before =>
          obtain ⟨rfl, htail⟩ := List.cons.inj hx
          have hrest : g.Spells (q.body ++ before ++ .nonterminal p.head :: after) w := by
            apply ih
            rw [List.append_assoc, ← htail]
            rfl
          rw [List.append_assoc] at hrest
          exact .nonterminal hq hrest

theorem of_derives (h : g.Derives x (w.map .terminal)) : g.Spells x w := by
  generalize hz : w.map Symbol.terminal = z at h
  induction h with
  | refl x => exact hz ▸ terminals w
  | head first _ ih =>
      cases first with
      | replace mem before after => exact of_replace mem (ih hz)

theorem exists_deriveLeftmost (h : g.Spells x w) :
    ∃ ps : List Production, (∀ p ∈ ps, p ∈ g.productions) ∧ deriveLeftmost ps x = some (w.map .terminal) := by
  induction h with
  | nil => exact ⟨[], by simp, rfl⟩
  | @terminal x w t _ ih =>
      obtain ⟨ps, hps, hderive⟩ := ih
      refine ⟨ps, hps, ?_⟩
      have hterminals := deriveLeftmost_terminals ps [t] x
      rw [hderive] at hterminals
      exact hterminals
  | @nonterminal p x w mem _ ih =>
      obtain ⟨ps, hps, hderive⟩ := ih
      refine ⟨p :: ps, List.forall_mem_cons.mpr ⟨mem, hps⟩, ?_⟩
      rw [deriveLeftmost_cons, replaceLeftmost, if_pos rfl]
      exact hderive

end Spells

/-- Every word of terminals that can be derived has a leftmost derivation. -/
theorem exists_deriveLeftmost_of_derives (h : g.Derives x (w.map .terminal)) :
    ∃ ps : List Production, (∀ p ∈ ps, p ∈ g.productions) ∧ deriveLeftmost ps x = some (w.map .terminal) :=
  (Spells.of_derives h).exists_deriveLeftmost

variable {ids : List ProductionId} {id : ProductionId}

@[simp] theorem deriveByIds_nil (x : List Symbol) : g.deriveByIds [] x = some x := rfl

theorem deriveByIds_cons (id : ProductionId) (ids : List ProductionId) (x : List Symbol) :
    g.deriveByIds (id :: ids) x = (g.replaceById x id).bind (g.deriveByIds ids) := List.foldlM_cons

theorem deriveByIds_append (ids later : List ProductionId) (x : List Symbol) :
    g.deriveByIds (ids ++ later) x = (g.deriveByIds ids x).bind (g.deriveByIds later) := List.foldlM_append

theorem deriveByIds_singleton (id : ProductionId) (x : List Symbol) : g.deriveByIds [id] x = g.replaceById x id := by
  rw [deriveByIds_cons]
  cases g.replaceById x id with
  | none => rfl
  | some next => rfl

theorem deriveByIds_concat (h : g.deriveByIds ids x = some y) : g.deriveByIds (ids ++ [id]) x = g.replaceById y id := by
  rw [deriveByIds_append, h, Option.bind_some, deriveByIds_singleton]

theorem replaceById_head (hg : g.WellFormed) (mem : p ∈ g.productions) (u : List Terminal) (rest : List Symbol) :
    g.replaceById (u.map .terminal ++ .nonterminal p.head :: rest) p.id = some (u.map .terminal ++ (p.body ++ rest)) := by
  rw [replaceById, hg.get?_id mem, Option.bind_some, replaceLeftmost_head]

theorem exists_of_replaceById (hg : g.WellFormed) (h : g.replaceById x id = some y) :
    ∃ p ∈ g.productions, p.id = id ∧ replaceLeftmost p x = some y := by
  obtain ⟨p, hp, hreplace⟩ := Option.bind_eq_some_iff.mp h
  obtain ⟨mem, hid⟩ := hg.get?_eq_some_iff.mp hp
  exact ⟨p, mem, hid, hreplace⟩

theorem rewrites_of_replaceById (hg : g.WellFormed) (h : g.replaceById x id = some y) : g.Rewrites x y := by
  obtain ⟨p, mem, _, hreplace⟩ := exists_of_replaceById hg h
  exact rewrites_of_replaceLeftmost mem hreplace

theorem derives_of_deriveByIds (hg : g.WellFormed) (h : g.deriveByIds ids x = some y) : g.Derives x y := by
  induction ids generalizing x with
  | nil =>
      cases h
      exact .refl _
  | cons id rest ih =>
      rw [deriveByIds_cons, Option.bind_eq_some_iff] at h
      obtain ⟨next, hnext, h⟩ := h
      exact .head (rewrites_of_replaceById hg hnext) (ih h)

theorem deriveByIds_map (hg : g.WellFormed) {ps : List Production} (mem : ∀ p ∈ ps, p ∈ g.productions)
    (x : List Symbol) : g.deriveByIds (ps.map Production.id) x = deriveLeftmost ps x := by
  induction ps generalizing x with
  | nil => rfl
  | cons p rest ih =>
      obtain ⟨hp, hrest⟩ := List.forall_mem_cons.mp mem
      rw [List.map_cons, deriveByIds_cons, deriveLeftmost_cons, replaceById, hg.get?_id hp, Option.bind_some]
      exact congrArg _ (funext (ih hrest))

theorem deriveByIds_terminals (ids : List ProductionId) (u : List Terminal) (x : List Symbol) :
    g.deriveByIds ids (u.map .terminal ++ x) = (g.deriveByIds ids x).map (u.map .terminal ++ ·) := by
  induction ids generalizing x with
  | nil => rfl
  | cons id rest ih =>
      rw [deriveByIds_cons, deriveByIds_cons, replaceById, replaceById]
      cases g.get? id with
      | none => rfl
      | some p =>
          rw [Option.bind_some, Option.bind_some, replaceLeftmost_terminals]
          cases replaceLeftmost p x with
          | none => rfl
          | some next => exact ih next

end Grammar

end PredictiveParsing
