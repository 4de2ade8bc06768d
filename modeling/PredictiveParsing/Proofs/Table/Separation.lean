import PredictiveParsing.Proofs.Table.Existence
import PredictiveParsing.Proofs.Table.Justification

/-! # Tables and separated alternatives

The alternatives of a nonterminal are separated if no two of them begin with the same word. Without epsilon
productions separated alternatives have a table, as soon as the FIRST sets exist: what a production claims its body
begins with, so no two claims meet. The converse needs complete FIRST sets. What a right-hand side begins with it
generates if its nonterminals have all their words, so an overlap that a table leaves unnoticed goes back to a
nonterminal without one of its words. -/

namespace PredictiveParsing

open Std

namespace Grammar

/-- No two alternatives of a nonterminal begin with the same word. -/
def Separated (g : Grammar) (k : Nat) : Prop :=
  ∀ a, ∀ p ∈ g.alternatives a, ∀ q ∈ g.alternatives a, p ≠ q → ∀ w, g.BeginsWith k p.body w → ¬g.BeginsWith k q.body w

end Grammar

namespace Prediction

variable {g : Grammar} {k : Nat} {found : Prediction} {complete : Bool} {a : Nonterminal} {x rest : List Symbol}
  {v : List Terminal} {p : Production} {w : Lookahead}

section

variable (hg : g.WellFormed) (hfound : found.Describes g k) (free : g.EpsilonFree)
include hg hfound free

/-- Without epsilon productions nothing vanishes, so no production claims what follows its head. -/
theorem not_claimsFollow (mem : p ∈ g.productions) : ¬found.ClaimsFollow p w := by
  intro h
  have hbody := free.eq_nil_of_derives_nil hg (h.derives_nil hg hfound mem)
  exact (hg.wellFormed p mem).body_ne_nil (free p mem) hbody

theorem beginsWith_of_claims (mem : p ∈ g.productions) (h : found.Claims p w) : g.BeginsWith k p.body w := by
  rcases h with hfirst | hfollow
  · exact hfirst.beginsWith hg hfound mem
  · exact absurd hfollow (not_claimsFollow hg hfound free mem)

theorem unambiguous_of_separated (separated : g.Separated k) : found.Unambiguous g := by
  constructor
  · intro p hp q hq hhead _ _ w hpw hqw
    by_contra hne
    apply separated q.head p (hg.mem_alternatives_iff.mpr ⟨hp, hhead⟩) q (hg.mem_alternatives_iff.mpr ⟨hq, rfl⟩) hne w
    · exact beginsWith_of_claims hg hfound free hp hpw
    · exact beginsWith_of_claims hg hfound free hq hqw
  · intro p mem _ w _
    exact not_claimsFollow hg hfound free mem

omit free in
/-- A nonterminal in front that derives the whole word and more has a FIRST word that begins with it. -/
theorem generates_of_derives_beyond (closed : g.Closed) (defined : g.defines a = true)
    (known : ∀ w, g.BeginsWith k [.nonterminal a] w → w ∈ found.firsts.get a) (within : Lookahead.Within k ⟨v⟩)
    (hne : v ≠ []) {later : List Symbol} (h : g.Derives [.nonterminal a] (v.map .terminal ++ later)) :
    found.generates true (.nonterminal a :: rest) v = true := by
  have hproper : g.Proper [.nonterminal a] := by
    intro symbol hsymbol
    rw [List.mem_singleton.mp hsymbol]
    refine ⟨Symbol.noConfusion, fun b hb => ?_⟩
    rwa [← Symbol.nonterminal.inj hb]
  have hlater := (Grammar.proper_append.mp (hproper.of_derives hg closed h)).2
  obtain ⟨w, hw, hle⟩ := Grammar.exists_beginsWith_of_derives hg hfound.firsts within hlater h
  exact generates_of_prefix (known w hw) hne hle

/-- A nonterminal in front takes its part of the word if the symbols behind it take theirs. -/
theorem generates_nonterminal_of_derives (closed : g.Closed) (defined : g.defines a = true)
    (known : ∀ w, g.BeginsWith k [.nonterminal a] w → w ∈ found.firsts.get a) (within : Lookahead.Within k ⟨v⟩)
    (hne : v ≠ [])
    (later : ∀ {v}, Lookahead.Within k ⟨v⟩ → g.DerivesUpTo complete rest v → found.generates complete rest v = true)
    (h : g.DerivesUpTo complete (.nonterminal a :: rest) v) :
    found.generates complete (.nonterminal a :: rest) v = true := by
  have hexact : ∀ {u : List Terminal}, Lookahead.Within k ⟨u⟩ → g.Derives [.nonterminal a] (u.map .terminal) →
      (⟨u⟩ : Lookahead) ∈ found.firsts.get a := by
    intro u hwithin hderives
    exact known ⟨u⟩ ⟨hwithin, .of_derives hderives⟩
  obtain ⟨behind, hderives, hstop⟩ := h
  obtain ⟨first, last, hsplit, hfirst, hlast⟩ := Grammar.Derives.exists_of_append (x := [.nonterminal a]) hderives
  rcases List.append_eq_append_iff.mp hsplit with ⟨c, rfl, hbehind⟩ | ⟨c, hv, rfl⟩
  · rcases hstop with rfl | rfl
    · exact generates_of_derives_beyond hg hfound closed defined known within hne hfirst
    · -- Nothing stands behind the word, so the nonterminal derives it exactly and is the last symbol.
      obtain ⟨rfl, rfl⟩ := List.append_eq_nil_iff.mp hbehind.symm
      rw [List.append_nil] at hfirst
      have hrest := later (Lookahead.within_empty k) (.of_derives hlast)
      rw [← List.append_nil v]
      exact generates_nonterminal (hexact within hfirst) hne rfl hrest
  · obtain ⟨u, v, rfl, rfl, rfl⟩ := List.map_eq_append_iff.mp hv
    have hu : u ≠ [] := by
      rintro rfl
      cases free.eq_nil_of_derives_nil hg hfirst
    exact generates_nonterminal (hexact within.left hfirst) hu rfl (later within.right ⟨behind, hlast, hstop⟩)

/-- Out of complete FIRST sets a string generates what it derives. -/
theorem generates_of_derivesUpTo (closed : g.Closed) (proper : g.Proper x)
    (known : ∀ a, .nonterminal a ∈ x → ∀ w, g.BeginsWith k [.nonterminal a] w → w ∈ found.firsts.get a)
    (within : Lookahead.Within k ⟨v⟩) (h : g.DerivesUpTo complete x v) : found.generates complete x v = true := by
  induction x generalizing v with
  | nil =>
      obtain ⟨behind, hderives, _⟩ := h
      obtain ⟨hv, _⟩ := List.append_eq_nil_iff.mp hderives.eq_nil_of_nil
      rw [List.map_eq_nil_iff.mp hv, generates_nil, Bool.or_eq_true]
      exact Or.inr rfl
  | cons symbol rest ih =>
      obtain ⟨behind, hderives, hstop⟩ := h
      obtain ⟨⟨hplain, hdefined⟩, hproper⟩ := List.forall_mem_cons.mp proper
      have hknown := fun b hb => known b (List.mem_cons_of_mem symbol hb)
      by_cases hne : v = []
      · subst hne
        rw [generates_nil, Bool.or_eq_true]
        rcases hstop with hcomplete | rfl
        · exact Or.inl hcomplete
        · cases free.eq_nil_of_derives_nil hg hderives
      cases symbol with
      | terminal t =>
          obtain ⟨later, hlater, hrest⟩ := hderives.exists_of_terminal
          obtain ⟨s, v, rfl⟩ := List.exists_cons_of_ne_nil hne
          obtain ⟨hs, rfl⟩ := List.cons.inj hlater
          obtain rfl := Symbol.terminal.inj hs
          have ht : ¬s.isEpsilon = true := fun hepsilon => hplain (congrArg _ (Terminal.isEpsilon_iff.mp hepsilon))
          rw [generates, if_neg ht, beq_self_eq_true, Bool.true_and]
          exact ih hproper hknown (Lookahead.Within.right (u := [s]) within) ⟨behind, hrest, hstop⟩
      | nonterminal a =>
          exact generates_nonterminal_of_derives hg hfound free closed (hdefined a rfl)
            (known a List.mem_cons_self) within hne (fun within h => ih hproper hknown within h) ⟨behind, hderives, hstop⟩

/-- Out of complete FIRST sets a production claims what its body begins with. -/
theorem claims_of_beginsWith (closed : g.Closed) (mem : p ∈ g.productions)
    (known : ∀ a, a = p.head ∨ .nonterminal a ∈ p.body → ∀ w, g.BeginsWith k [.nonterminal a] w → w ∈ found.firsts.get a)
    (h : g.BeginsWith k p.body w) : found.Claims p w := by
  have hplain := free p mem
  refine Or.inl ⟨hplain, ?_, known p.head (Or.inl rfl) w (h.of_body mem), ?_⟩
  · rintro rfl
    have hvanishes := h.derives_exactly (Lookahead.isComplete_empty hfound.pos)
    exact (hg.wellFormed p mem).body_ne_nil hplain (free.eq_nil_of_derives_nil hg hvanishes)
  · rw [hfound.bound, ← Production.body_of_plain hplain]
    exact generates_of_derivesUpTo hg hfound free closed (Grammar.proper_body hg closed mem)
      (fun a ha => known a (Or.inr ha)) h.within h.derives

end

end Prediction

namespace Grammar

variable {g : Grammar} {k : Nat} {x : List Symbol} {t : Terminal} {w : Lookahead}

theorem EpsilonFree.singleEpsilon (free : g.EpsilonFree) : g.SingleEpsilon := by
  intro p hp _ _ _ hepsilon
  rw [free p hp] at hepsilon
  cases hepsilon

/-- What a string with a terminal in front begins with begins with this terminal. -/
theorem BeginsWith.exists_of_terminal (pos : 0 < k) (h : g.BeginsWith k (.terminal t :: x) w) :
    ∃ v, w = ⟨t :: v⟩ := by
  obtain ⟨terminals⟩ := w
  cases terminals with
  | nil =>
      have hvanishes := h.derives_exactly (Lookahead.isComplete_empty pos)
      obtain ⟨_, hz, _⟩ := hvanishes.exists_of_terminal
      cases hz
  | cons s v =>
      obtain ⟨_, rest, hderives, _⟩ := h
      obtain ⟨_, hz, _⟩ := hderives.exists_of_terminal
      obtain ⟨hs, _⟩ := List.cons.inj hz
      rw [Symbol.terminal.inj hs]
      exact ⟨v, rfl⟩

/-- Alternatives are separated if each has a terminal of its own in front. -/
theorem separated_of_terminals (pos : 0 < k)
    (h : ∀ a, ∀ p ∈ g.alternatives a, ∀ q ∈ g.alternatives a, p ≠ q →
      ∃ s t x y, p.body = .terminal s :: x ∧ q.body = .terminal t :: y ∧ s ≠ t) : g.Separated k := by
  intro a p hp q hq hne w hpw hqw
  obtain ⟨s, t, x, y, hs, ht, hst⟩ := h a p hp q hq hne
  rw [hs] at hpw
  rw [ht] at hqw
  obtain ⟨u, rfl⟩ := hpw.exists_of_terminal pos
  obtain ⟨v, hv⟩ := hqw.exists_of_terminal pos
  exact hst (List.cons.inj (Lookahead.mk.inj hv)).1

/-- Separated alternatives have a table, each of whose entries is the only alternative that begins with its word. -/
theorem exists_table_of_separated (constructed : g.Constructed) (checked : ∃ unreachable, g.check = .ok unreachable)
    (free : g.EpsilonFree) (pos : 0 < k) (analysed : ∃ firsts, g.firstSets k = .ok firsts)
    (separated : g.Separated k) :
    ∃ table, g.table k = .ok table ∧ ∀ a w id, table.get? a w = some id →
      ∃ p ∈ g.alternatives a, p.id = id ∧ g.BeginsWith k p.body w ∧
        ∀ q ∈ g.alternatives a, g.BeginsWith k q.body w → q = p := by
  have hg := constructed.wellFormed
  have hclosed := closed_iff_check.mpr checked
  have hloops := (exists_firstSets_iff hg hclosed pos).mp analysed
  obtain ⟨found, hfound⟩ := (exists_prediction_iff hg pos).mpr ⟨hclosed, hloops⟩
  have hdescribes := Prediction.describes_of_prediction hfound
  have hunambiguous := Prediction.unambiguous_of_separated hg hdescribes free separated
  obtain ⟨table, htable⟩ := (exists_table_iff hg free.singleEpsilon hfound).mpr hunambiguous
  refine ⟨table, htable, fun a w id hentry => ?_⟩
  obtain ⟨p, mem, hid, rfl, hclaim⟩ := exists_claim_of_get?_table hg hfound htable hentry
  have hp := hg.mem_alternatives_iff.mpr ⟨mem, rfl⟩
  have hpw := Prediction.beginsWith_of_claims hg hdescribes free mem hclaim
  refine ⟨p, hp, hid, hpw, fun q hq hqw => ?_⟩
  by_contra hne
  exact separated p.head q hq p hp hne w hqw hpw

/-- The grammar of expressions with two operators in front of their operands. -/
def prefixed : Grammar where
  vocabulary := ⟨5, 1⟩
  start := ⟨0⟩
  arena := #[⟨⟨0⟩, ⟨0⟩, [.terminal ⟨2⟩, .nonterminal ⟨0⟩, .nonterminal ⟨0⟩]⟩,
    ⟨⟨1⟩, ⟨0⟩, [.terminal ⟨3⟩, .nonterminal ⟨0⟩, .nonterminal ⟨0⟩]⟩, ⟨⟨2⟩, ⟨0⟩, [.terminal ⟨4⟩]⟩]
  index := .ofList [((⟨0⟩ : ProductionId), 0), (⟨1⟩, 1), (⟨2⟩, 2)]
  rules := .ofList [((⟨0⟩ : Nonterminal), #[0, 1, 2])]

theorem build_prefixed :
    build ⟨5, 1⟩ ⟨0⟩
      [⟨⟨0⟩, [⟨⟨0⟩, [.terminal ⟨2⟩, .nonterminal ⟨0⟩, .nonterminal ⟨0⟩]⟩,
        ⟨⟨1⟩, [.terminal ⟨3⟩, .nonterminal ⟨0⟩, .nonterminal ⟨0⟩]⟩, ⟨⟨2⟩, [.terminal ⟨4⟩]⟩]⟩] = .ok prefixed := by cbv

theorem separated_prefixed : prefixed.Separated 2 := by
  have hg := (constructed_of_build build_prefixed).wellFormed
  have hbody : ∀ p ∈ prefixed.productions, p.body = .terminal ⟨p.id.id + 2⟩ :: p.body.tail := by decide
  apply separated_of_terminals (by decide)
  intro a p hp q hq hne
  obtain ⟨hp, _⟩ := hg.mem_alternatives_iff.mp hp
  obtain ⟨hq, _⟩ := hg.mem_alternatives_iff.mp hq
  refine ⟨_, _, _, _, hbody p hp, hbody q hq, fun heq => hne (hg.eq_of_id_eq hp hq ?_)⟩
  exact congrArg ProductionId.mk (Nat.add_right_cancel (Terminal.mk.inj heq))

theorem exists_table_prefixed :
    ∃ table, prefixed.table 2 = .ok table ∧ ∀ a w id, table.get? a w = some id →
      ∃ p ∈ prefixed.alternatives a, p.id = id ∧ prefixed.BeginsWith 2 p.body w ∧
        ∀ q ∈ prefixed.alternatives a, prefixed.BeginsWith 2 q.body w → q = p :=
  exists_table_of_separated (constructed_of_build build_prefixed) ⟨[], by cbv⟩ (by decide) (by decide)
    ⟨_, by cbv⟩ separated_prefixed

/-- Where two alternatives of a table begin with the same word, a nonterminal of theirs, or their head, lacks one of
the words that it begins with in its FIRST set. -/
theorem missing_word_of_overlap (constructed : g.Constructed) (free : g.EpsilonFree) {table : Table}
    (htable : g.table k = .ok table) :
    ∃ firsts, g.firstSets k = .ok firsts ∧ ∀ a, ∀ p ∈ g.alternatives a, ∀ q ∈ g.alternatives a, p ≠ q →
      ∀ w, g.BeginsWith k p.body w → g.BeginsWith k q.body w →
        ∃ b, (b = a ∨ .nonterminal b ∈ p.body ∨ .nonterminal b ∈ q.body) ∧
          ∃ v, g.BeginsWith k [.nonterminal b] v ∧ v ∉ firsts.get b := by
  have hg := constructed.wellFormed
  obtain ⟨found, hfound, _⟩ := table_eq_ok_iff.mp htable
  have hdescribes := Prediction.describes_of_prediction hfound
  have hclosed := ((exists_prediction_iff hg hdescribes.pos).mp ⟨found, hfound⟩).1
  refine ⟨found.firsts, hdescribes.firsts, fun a p hp q hq hne w hpw hqw => ?_⟩
  obtain ⟨hpmem, rfl⟩ := hg.mem_alternatives_iff.mp hp
  obtain ⟨hqmem, hhead⟩ := hg.mem_alternatives_iff.mp hq
  by_contra hknown
  push Not at hknown
  have hpclaim : found.Claims p w := by
    apply Prediction.claims_of_beginsWith hg hdescribes free hclosed hpmem _ hpw
    exact fun b hb => hknown b (hb.imp_right Or.inl)
  have hqclaim : found.Claims q w := by
    apply Prediction.claims_of_beginsWith hg hdescribes free hclosed hqmem _ hqw
    exact fun b hb => hknown b (hb.imp (·.trans hhead) Or.inr)
  have hunambiguous := unambiguous_of_table hg hfound htable
  apply hne
  exact hunambiguous.one_claimant p hpmem q hqmem hhead.symm (free p hpmem) (free q hqmem) w hpclaim hqclaim

/-- The grammar of a choice between two choices that have a terminal in common. -/
def crossing : Grammar where
  vocabulary := ⟨5, 3⟩
  start := ⟨0⟩
  arena := #[⟨⟨0⟩, ⟨0⟩, [.nonterminal ⟨1⟩]⟩, ⟨⟨1⟩, ⟨0⟩, [.nonterminal ⟨2⟩]⟩, ⟨⟨2⟩, ⟨1⟩, [.terminal ⟨2⟩]⟩,
    ⟨⟨3⟩, ⟨1⟩, [.terminal ⟨3⟩]⟩, ⟨⟨4⟩, ⟨2⟩, [.terminal ⟨4⟩]⟩, ⟨⟨5⟩, ⟨2⟩, [.terminal ⟨3⟩]⟩]
  index := .ofList [((⟨0⟩ : ProductionId), 0), (⟨1⟩, 1), (⟨2⟩, 2), (⟨3⟩, 3), (⟨4⟩, 4), (⟨5⟩, 5)]
  rules := .ofList [((⟨0⟩ : Nonterminal), #[0, 1]), (⟨1⟩, #[2, 3]), (⟨2⟩, #[4, 5])]

theorem build_crossing :
    build ⟨5, 3⟩ ⟨0⟩
      [⟨⟨0⟩, [⟨⟨0⟩, [.nonterminal ⟨1⟩]⟩, ⟨⟨1⟩, [.nonterminal ⟨2⟩]⟩]⟩,
        ⟨⟨1⟩, [⟨⟨2⟩, [.terminal ⟨2⟩]⟩, ⟨⟨3⟩, [.terminal ⟨3⟩]⟩]⟩,
        ⟨⟨2⟩, [⟨⟨4⟩, [.terminal ⟨4⟩]⟩, ⟨⟨5⟩, [.terminal ⟨3⟩]⟩]⟩] = .ok crossing := by cbv

/-- The table of this grammar with a lookahead of one terminal, which leaves out the terminal in common at the start. -/
def crossingTable : Table where
  k := 1
  entries := .ofList [((⟨⟨0⟩, ⟨[⟨2⟩]⟩⟩ : TableKey), (⟨0⟩ : ProductionId)), (⟨⟨0⟩, ⟨[⟨4⟩]⟩⟩, ⟨1⟩),
    (⟨⟨1⟩, ⟨[⟨2⟩]⟩⟩, ⟨2⟩), (⟨⟨1⟩, ⟨[⟨3⟩]⟩⟩, ⟨3⟩), (⟨⟨2⟩, ⟨[⟨4⟩]⟩⟩, ⟨4⟩), (⟨⟨2⟩, ⟨[⟨3⟩]⟩⟩, ⟨5⟩)]

theorem table_crossing : crossing.table 1 = .ok crossingTable := by cbv

/-- The nonterminals below the start of this grammar begin with the terminal in common. -/
theorem beginsWith_crossing {p : Production} (mem : p ∈ crossing.productions) (h : p.body = [.terminal ⟨3⟩]) :
    crossing.BeginsWith 1 [.nonterminal p.head] ⟨[⟨3⟩]⟩ := by
  have hword : crossing.Derives p.body ([⟨3⟩].map .terminal) := by
    rw [h]
    exact .refl _
  exact BeginsWith.of_body mem ⟨⟨by decide, by decide⟩, .of_derives hword⟩

theorem overlap_of_crossing_is_missing :
    ∃ firsts, crossing.firstSets 1 = .ok firsts ∧
      ∃ b, (b = ⟨0⟩ ∨ .nonterminal b ∈ [Symbol.nonterminal ⟨1⟩] ∨ .nonterminal b ∈ [Symbol.nonterminal ⟨2⟩]) ∧
        ∃ v, crossing.BeginsWith 1 [.nonterminal b] v ∧ v ∉ firsts.get b := by
  obtain ⟨firsts, hfirsts, hmissing⟩ :=
    missing_word_of_overlap (constructed_of_build build_crossing) (by decide) table_crossing
  have hfirst := beginsWith_crossing (p := ⟨⟨3⟩, ⟨1⟩, [.terminal ⟨3⟩]⟩) (by decide) rfl
  have hsecond := beginsWith_crossing (p := ⟨⟨5⟩, ⟨2⟩, [.terminal ⟨3⟩]⟩) (by decide) rfl
  refine ⟨firsts, hfirsts, ?_⟩
  exact hmissing ⟨0⟩ ⟨⟨0⟩, ⟨0⟩, [.nonterminal ⟨1⟩]⟩ (by decide) ⟨⟨1⟩, ⟨0⟩, [.nonterminal ⟨2⟩]⟩ (by decide) (by decide)
    ⟨[⟨3⟩]⟩ hfirst hsecond

/-- A table does not show that the alternatives are separated. -/
theorem crossing_has_table_but_is_not_separated :
    crossing.Constructed ∧ (∃ unreachable, crossing.check = .ok unreachable) ∧ crossing.EpsilonFree ∧
      crossing.table 1 = .ok crossingTable ∧ ¬crossing.Separated 1 := by
  refine ⟨constructed_of_build build_crossing, ⟨[], by cbv⟩, by decide, table_crossing, fun hseparated => ?_⟩
  have hfirst := beginsWith_crossing (p := ⟨⟨3⟩, ⟨1⟩, [.terminal ⟨3⟩]⟩) (by decide) rfl
  have hsecond := beginsWith_crossing (p := ⟨⟨5⟩, ⟨2⟩, [.terminal ⟨3⟩]⟩) (by decide) rfl
  exact hseparated ⟨0⟩ ⟨⟨0⟩, ⟨0⟩, [.nonterminal ⟨1⟩]⟩ (by decide) ⟨⟨1⟩, ⟨0⟩, [.nonterminal ⟨2⟩]⟩ (by decide)
    (by decide) ⟨[⟨3⟩]⟩ hfirst hsecond

end Grammar

end PredictiveParsing
