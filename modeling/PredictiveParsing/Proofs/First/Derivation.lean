import PredictiveParsing.Proofs.First.Sets
import PredictiveParsing.Proofs.Follow
import PredictiveParsing.Proofs.Grammar.Derivation

/-! # What strings begin with

A word within the bound is what a string of symbols begins with if it is derived from the string, with any symbols
behind it if it is complete and with nothing behind it otherwise. A reading is a derivation, so the word of a
production is what its body begins with. Where the FIRST sets exist, every derived string can be read on from its
first terminals until these have become such a word. -/

namespace PredictiveParsing

namespace Grammar

variable {g : Grammar} {k : Nat} {x y : List Symbol} {v : List Terminal} {w : Lookahead} {p : Production}

/-- Terminals are derived with symbols behind them, which are only there if the terminals are complete. -/
def DerivesUpTo (g : Grammar) (complete : Bool) (x : List Symbol) (v : List Terminal) : Prop :=
  ∃ rest, g.Derives x (v.map .terminal ++ rest) ∧ (complete = true ∨ rest = [])

/-- A word of at most `k` terminals that is derived with symbols behind it, or exactly if it is not complete. -/
structure BeginsWith (g : Grammar) (k : Nat) (x : List Symbol) (w : Lookahead) : Prop where
  within : w.Within k
  derives : g.DerivesUpTo (w.isComplete k) x w.terminals

/-- What the first string derives exactly can be put in front of what the second one derives. -/
theorem DerivesUpTo.append {u : List Terminal} {complete : Bool} (h : g.Derives x (u.map .terminal))
    (h' : g.DerivesUpTo complete y v) : g.DerivesUpTo complete (x ++ y) (u ++ v) := by
  obtain ⟨rest, hrest, hstop⟩ := h'
  refine ⟨rest, ?_, hstop⟩
  rw [List.map_append, List.append_assoc]
  exact h.append hrest

/-- An exact derivation leaves nothing behind. -/
theorem DerivesUpTo.of_derives {complete : Bool} (h : g.Derives x (v.map .terminal)) : g.DerivesUpTo complete x v := by
  refine ⟨[], ?_, Or.inr rfl⟩
  rwa [List.append_nil]

/-- A word that is not complete is derived exactly. -/
theorem BeginsWith.derives_exactly (h : g.BeginsWith k x w) (incomplete : w.isComplete k = false) :
    g.Derives x (w.terminals.map .terminal) := by
  obtain ⟨_, rest, hrest, hstop⟩ := h
  rw [incomplete] at hstop
  rwa [hstop.resolve_left Bool.false_ne_true, List.append_nil] at hrest

theorem BeginsWith.of_derives (derives : g.Derives x y) (h : g.BeginsWith k y w) : g.BeginsWith k x w := by
  obtain ⟨hwithin, rest, hrest, hstop⟩ := h
  exact ⟨hwithin, rest, derives.trans hrest, hstop⟩

/-- What two strings begin with is put together under the bound. Only a word that is not complete leaves room for the
second one, and then it is all that the first string puts there. -/
theorem BeginsWith.concat {u v : Lookahead} (h : g.BeginsWith k x u) (h' : g.BeginsWith k y v) :
    g.BeginsWith k (x ++ y) (u.concat v k) := by
  refine ⟨h.within.concat h'.within.wellFormed, ?_⟩
  cases hcomplete : u.isComplete k with
  | true =>
      obtain ⟨_, rest, hrest, _⟩ := h
      rw [Lookahead.concat_of_isComplete hcomplete, hcomplete]
      refine ⟨rest ++ y, ?_, Or.inl rfl⟩
      rw [← List.append_assoc]
      exact hrest.append_right y
  | false =>
      obtain ⟨s, t, hconcat, hsplit, hall⟩ := Lookahead.exists_concat_eq u v k
      obtain ⟨_, rest, hrest, hstop⟩ := h'
      rw [hconcat]
      apply DerivesUpTo.append (h.derives_exactly hcomplete)
      refine ⟨t.map .terminal ++ rest, ?_, ?_⟩
      · rw [hsplit, List.map_append, List.append_assoc] at hrest
        exact hrest
      · rcases hall with hdone | rfl
        · exact Or.inl hdone
        · cases hopen : (u.concat v k).isComplete k with
          | true => exact Or.inl rfl
          | false =>
              -- The second word is not complete either, so it is all that its string puts there.
              have hv : v.isComplete k = false := by
                rw [show u.concat v k = ⟨u.terminals ++ s⟩ from congrArg Lookahead.mk hconcat] at hopen
                rw [show v = ⟨s⟩ from congrArg Lookahead.mk (hsplit.trans (List.append_nil s))]
                exact Lookahead.isComplete_right hopen
              rw [hv] at hstop
              exact Or.inr (hstop.resolve_left Bool.false_ne_true)

/-- A nonterminal begins with what the body of one of its productions begins with. -/
theorem BeginsWith.of_body (mem : p ∈ g.productions) (h : g.BeginsWith k p.body w) :
    g.BeginsWith k [.nonterminal p.head] w := h.of_derives (derives_body mem)

end Grammar

namespace First

variable {g : Grammar} {x z : List Symbol} {v : List Terminal}

/-- A replacement brings in no epsilon marker. -/
theorem ne_epsilon_of_replacement? (hg : g.WellFormed) {a : Nonterminal} {p : Production}
    (choice : replacement? g a = .ok (some p)) (plain : ∀ symbol ∈ Symbol.nonterminal a :: x, symbol ≠ .terminal .epsilon) :
    ∀ symbol ∈ p.symbols ++ x, symbol ≠ .terminal .epsilon := by
  obtain ⟨mem, _, hkind⟩ := mem_of_replacement? hg choice
  refine List.forall_mem_append.mpr ⟨(hg.wellFormed p mem).symbols_ne_epsilon hkind, ?_⟩
  exact (List.forall_mem_cons.mp plain).2

/-- A reading derives what it puts out, with what is left to read behind it. -/
theorem Reading.derives (hg : g.WellFormed) (plain : ∀ symbol ∈ x, symbol ≠ .terminal .epsilon)
    (h : Reading g x v z) : g.Derives x (v.map .terminal ++ z) := by
  induction h with
  | stop x => exact .refl x
  | @terminal t x z v _ _ ih =>
      have hrest := ih (List.forall_mem_cons.mp plain).2
      exact hrest.append_left [.terminal t]
  | epsilon => exact absurd rfl (List.forall_mem_cons.mp plain).1
  | @drop a x z v choice _ ih =>
      obtain ⟨p, mem, rfl, hepsilon⟩ := exists_epsilon_of_replacement? hg choice
      have hhead := Grammar.derives_body mem
      rw [Production.body_of_isEpsilon hepsilon] at hhead
      exact hhead.append (ih (List.forall_mem_cons.mp plain).2)
  | @replace a p x z v choice _ ih =>
      have hrest := ih (ne_epsilon_of_replacement? hg choice plain)
      obtain ⟨mem, rfl, hplain⟩ := mem_of_replacement? hg choice
      rw [← Production.body_of_plain hplain] at hrest
      exact ((Grammar.derives_body mem).append_right x).trans hrest

end First

namespace Grammar

variable {g : Grammar} {k : Nat} {firsts : FirstSets} {x y : List Symbol} {w : Lookahead} {p : Production}
  {a : Nonterminal}

/-- The body of a production begins with the word of the production. -/
theorem beginsWith_of_ofProduction (hg : g.WellFormed) (mem : p ∈ g.productions)
    (h : First.ofProduction g k p = .ok w) : g.BeginsWith k p.body w := by
  cases hkind : p.isEpsilon with
  | true =>
      rw [First.ofProduction, hkind, if_pos rfl] at h
      cases h
      rw [Production.body_of_isEpsilon hkind]
      exact ⟨Lookahead.within_empty k, .of_derives (.refl [])⟩
  | false =>
      obtain ⟨hwithin, z, hread, hstop⟩ := First.reading_of_ofProduction hkind h
      rw [← Production.body_of_plain hkind] at hread
      exact ⟨hwithin, z, hread.derives hg fun _ => (hg.wellFormed p mem).ne_epsilon, hstop⟩

/-- A nonterminal begins with each of its FIRST words. -/
theorem beginsWith_of_mem_firsts (hg : g.WellFormed) (hfirsts : g.firstSets k = .ok firsts) (h : w ∈ firsts.get a) :
    g.BeginsWith k [.nonterminal a] w := by
  obtain ⟨p, mem, rfl, hword⟩ := (mem_get_firstSets hfirsts).mp h
  exact (beginsWith_of_ofProduction hg mem hword).of_body mem

/-- A nonterminal behind terminals adds to them what the bound leaves of one of its FIRST words, and leaves nothing
behind unless they have become complete. -/
theorem exists_derives_concat (hg : g.WellFormed) (hfirsts : g.firstSets k = .ok firsts) {u : List Terminal}
    (within : Lookahead.Within k ⟨u⟩) (defined : g.defines a = true)
    (derives : g.Derives x (u.map .terminal ++ .nonterminal a :: y)) :
    ∃ v later, Lookahead.Within k ⟨u ++ v⟩ ∧ g.Derives x ((u ++ v).map .terminal ++ (later ++ y)) ∧
      (Lookahead.isComplete ⟨u ++ v⟩ k = true ∨ later = []) := by
  obtain ⟨p, mem, rfl⟩ := hg.defines_iff.mp defined
  obtain ⟨w, hw⟩ := exists_ofProduction_of_firstSets hfirsts mem
  have hbegins : g.BeginsWith k (u.map .terminal) ⟨u⟩ := ⟨within, .of_derives (.refl _)⟩
  obtain ⟨hwithin, later, hlater, hstop⟩ := hbegins.concat ((beginsWith_of_ofProduction hg mem hw).of_body mem)
  obtain ⟨v, _, hconcat, _, _⟩ := Lookahead.exists_concat_eq ⟨u⟩ w k
  rw [show Lookahead.concat ⟨u⟩ w k = ⟨u ++ v⟩ from congrArg Lookahead.mk hconcat] at hwithin hlater hstop
  refine ⟨v, later, hwithin, derives.trans ?_, hstop⟩
  simpa using hlater.append_right y

/-- The terminals that a derived string begins with are continued, by what the symbols behind them begin with, to a
word that the original string begins with. -/
theorem exists_beginsWith_of_derives (hg : g.WellFormed) (hfirsts : g.firstSets k = .ok firsts) {u : List Terminal}
    (within : Lookahead.Within k ⟨u⟩) (proper : g.Proper y) (derives : g.Derives x (u.map .terminal ++ y)) :
    ∃ w, g.BeginsWith k x w ∧ u <+: w.terminals := by
  induction y generalizing u with
  | nil => exact ⟨⟨u⟩, ⟨within, [], derives, Or.inr rfl⟩, List.prefix_rfl⟩
  | cons symbol rest ih =>
      obtain ⟨⟨hplain, hdefined⟩, hproper⟩ := List.forall_mem_cons.mp proper
      cases hcomplete : Lookahead.isComplete ⟨u⟩ k with
      | true => exact ⟨⟨u⟩, ⟨within, _, derives, Or.inl hcomplete⟩, List.prefix_rfl⟩
      | false =>
          cases symbol with
          | terminal t =>
              have hpushed : Lookahead.push? ⟨u⟩ t k = some ⟨u ++ [t]⟩ :=
                Lookahead.push?_eq_some_iff.mpr ⟨fun heq => hplain (congrArg _ heq), hcomplete, rfl⟩
              obtain ⟨w, hw, hle⟩ := ih (within.push? hpushed) hproper (by simpa using derives)
              exact ⟨w, hw, (List.prefix_append u [t]).trans hle⟩
          | nonterminal a =>
              obtain ⟨v, later, hlonger, hderives, hstop⟩ :=
                exists_derives_concat hg hfirsts within (hdefined a rfl) derives
              rcases hstop with hdone | rfl
              · exact ⟨⟨u ++ v⟩, ⟨hlonger, _, hderives, Or.inl hdone⟩, List.prefix_append u v⟩
              · obtain ⟨w, hw, hle⟩ := ih hlonger hproper hderives
                exact ⟨w, hw, (List.prefix_append u v).trans hle⟩

end Grammar

end PredictiveParsing
