import PredictiveParsing.First
import PredictiveParsing.Proofs.Grammar.Invariant
import PredictiveParsing.Proofs.Lookahead

/-! # Readings

A string of symbols is read from the left: a terminal is put out, and a nonterminal is replaced by the right-hand
side of its first alternative that is not the epsilon production, or dropped if it has no other. A reading can stop
anywhere and leaves the symbols behind. There is never a choice, so two readings of a string agree as far as both go,
and a reading of a string splits where the string does. The word that a production contributes to FIRST is what a
reading of its right-hand side puts out. -/

namespace PredictiveParsing

namespace First

variable {g : Grammar} {k : Nat}

theorem replacement?_eq_ok_iff {a : Nonterminal} {p? : Option Production} :
    replacement? g a = .ok p? ↔ g.defines a = true ∧ (g.alternatives a).find? (fun p => !p.isEpsilon) = p? := by
  rw [replacement?, map_eq_ok_iff]
  constructor
  · rintro ⟨ps, hps, rfl⟩
    obtain ⟨hdefines, rfl⟩ := Grammar.alternatives?_eq_ok_iff.mp hps
    exact ⟨hdefines, rfl⟩
  · rintro ⟨hdefines, rfl⟩
    exact ⟨_, Grammar.alternatives?_eq_ok_iff.mpr ⟨hdefines, rfl⟩, rfl⟩

theorem mem_of_replacement? (hg : g.WellFormed) {a : Nonterminal} {p : Production}
    (h : replacement? g a = .ok (some p)) : p ∈ g.productions ∧ p.head = a ∧ p.isEpsilon = false := by
  obtain ⟨_, hfind⟩ := replacement?_eq_ok_iff.mp h
  obtain ⟨hp, hhead⟩ := hg.mem_alternatives_iff.mp (List.mem_of_find?_eq_some hfind)
  exact ⟨hp, hhead, by simpa using List.find?_some hfind⟩

/-- A nonterminal that is dropped has an epsilon production and no other. -/
theorem exists_epsilon_of_replacement? (hg : g.WellFormed) {a : Nonterminal} (h : replacement? g a = .ok none) :
    ∃ p ∈ g.productions, p.head = a ∧ p.isEpsilon = true := by
  obtain ⟨hdefines, hfind⟩ := replacement?_eq_ok_iff.mp h
  obtain ⟨p, hp, hhead⟩ := hg.defines_iff.mp hdefines
  have hkind := List.find?_eq_none.mp hfind p (hg.mem_alternatives_iff.mpr ⟨hp, hhead⟩)
  exact ⟨p, hp, hhead, by simpa using hkind⟩

/-- A string can be read as a word of terminals, with symbols left to read. -/
inductive Reading (g : Grammar) : List Symbol → List Terminal → List Symbol → Prop where
  | stop (x : List Symbol) : Reading g x [] x
  | terminal {t : Terminal} {x z : List Symbol} {v : List Terminal} (plain : t ≠ .epsilon) (rest : Reading g x v z) :
      Reading g (.terminal t :: x) (t :: v) z
  | epsilon {x z : List Symbol} {v : List Terminal} (rest : Reading g x v z) :
      Reading g (.terminal .epsilon :: x) v z
  | drop {a : Nonterminal} {x z : List Symbol} {v : List Terminal} (choice : replacement? g a = .ok none)
      (rest : Reading g x v z) : Reading g (.nonterminal a :: x) v z
  | replace {a : Nonterminal} {p : Production} {x z : List Symbol} {v : List Terminal}
      (choice : replacement? g a = .ok (some p)) (rest : Reading g (p.symbols ++ x) v z) :
      Reading g (.nonterminal a :: x) v z

namespace Reading

variable {x y z : List Symbol} {v : List Terminal}

theorem append_right (h : Reading g x v z) (y : List Symbol) : Reading g (x ++ y) v (z ++ y) := by
  induction h with
  | stop x => exact .stop _
  | terminal plain _ ih => exact .terminal plain ih
  | epsilon _ ih => exact .epsilon ih
  | drop choice _ ih => exact .drop choice ih
  | replace choice _ ih =>
      rw [List.append_assoc] at ih
      exact .replace choice ih

theorem trans {v' : List Terminal} (h : Reading g x v y) (h' : Reading g y v' z) : Reading g x (v ++ v') z := by
  induction h with
  | stop x => exact h'
  | terminal plain _ ih => exact .terminal plain (ih h')
  | epsilon _ ih => exact .epsilon (ih h')
  | drop choice _ ih => exact .drop choice (ih h')
  | replace choice _ ih => exact .replace choice (ih h')

theorem eq_nil_of_nil (h : Reading g [] v z) : v = [] ∧ z = [] := by
  cases h with
  | stop => exact ⟨rfl, rfl⟩

/-- A reading of two strings one after the other stops in the first one or reads it to its end. -/
theorem append_cases (h : Reading g (x ++ y) v z) :
    (∃ z', Reading g x v z' ∧ z = z' ++ y) ∨
      ∃ v₁ v₂, v = v₁ ++ v₂ ∧ Reading g x v₁ [] ∧ Reading g y v₂ z := by
  generalize hxy : x ++ y = s at h
  induction h generalizing x with
  | stop s => exact Or.inl ⟨x, .stop x, hxy.symm⟩
  | @terminal t s z v plain rest ih =>
      rcases List.append_eq_cons_iff.mp hxy with ⟨rfl, rfl⟩ | ⟨x, rfl, rfl⟩
      · exact Or.inr ⟨[], t :: v, rfl, .stop [], .terminal plain rest⟩
      · rcases ih rfl with ⟨z', hx, rfl⟩ | ⟨v₁, v₂, rfl, hx, hy⟩
        · exact Or.inl ⟨z', .terminal plain hx, rfl⟩
        · exact Or.inr ⟨t :: v₁, v₂, rfl, .terminal plain hx, hy⟩
  | @epsilon s z v rest ih =>
      rcases List.append_eq_cons_iff.mp hxy with ⟨rfl, rfl⟩ | ⟨x, rfl, rfl⟩
      · exact Or.inr ⟨[], v, rfl, .stop [], .epsilon rest⟩
      · rcases ih rfl with ⟨z', hx, rfl⟩ | ⟨v₁, v₂, rfl, hx, hy⟩
        · exact Or.inl ⟨z', .epsilon hx, rfl⟩
        · exact Or.inr ⟨v₁, v₂, rfl, .epsilon hx, hy⟩
  | @drop a s z v choice rest ih =>
      rcases List.append_eq_cons_iff.mp hxy with ⟨rfl, rfl⟩ | ⟨x, rfl, rfl⟩
      · exact Or.inr ⟨[], v, rfl, .stop [], .drop choice rest⟩
      · rcases ih rfl with ⟨z', hx, rfl⟩ | ⟨v₁, v₂, rfl, hx, hy⟩
        · exact Or.inl ⟨z', .drop choice hx, rfl⟩
        · exact Or.inr ⟨v₁, v₂, rfl, .drop choice hx, hy⟩
  | @replace a p s z v choice rest ih =>
      rcases List.append_eq_cons_iff.mp hxy with ⟨rfl, rfl⟩ | ⟨x, rfl, rfl⟩
      · exact Or.inr ⟨[], v, rfl, .stop [], .replace choice rest⟩
      · rcases ih (List.append_assoc _ _ _) with ⟨z', hx, rfl⟩ | ⟨v₁, v₂, rfl, hx, hy⟩
        · exact Or.inl ⟨z', .replace choice hx, rfl⟩
        · exact Or.inr ⟨v₁, v₂, rfl, .replace choice hx, hy⟩

/-- Of two readings of a string one continues the other. -/
theorem comparable {v' : List Terminal} {z' : List Symbol} (h : Reading g x v z) (h' : Reading g x v' z') :
    (∃ u, v' = v ++ u ∧ Reading g z u z') ∨ ∃ u, v = v' ++ u ∧ Reading g z' u z := by
  induction h generalizing v' with
  | stop x => exact Or.inl ⟨v', rfl, h'⟩
  | @terminal t x z v plain rest ih =>
      cases h' with
      | stop => exact Or.inr ⟨t :: v, rfl, .terminal plain rest⟩
      | terminal _ rest' =>
          rcases ih rest' with ⟨u, rfl, h⟩ | ⟨u, rfl, h⟩
          · exact Or.inl ⟨u, rfl, h⟩
          · exact Or.inr ⟨u, rfl, h⟩
      | epsilon => exact absurd rfl plain
  | @epsilon x z v rest ih =>
      cases h' with
      | stop => exact Or.inr ⟨v, rfl, .epsilon rest⟩
      | terminal plain => exact absurd rfl plain
      | epsilon rest' => exact ih rest'
  | @drop a x z v choice rest ih =>
      cases h' with
      | stop => exact Or.inr ⟨v, rfl, .drop choice rest⟩
      | drop _ rest' => exact ih rest'
      | replace choice' =>
          rw [choice] at choice'
          cases choice'
  | @replace a p x z v choice rest ih =>
      cases h' with
      | stop => exact Or.inr ⟨v, rfl, .replace choice rest⟩
      | drop choice' =>
          rw [choice] at choice'
          cases choice'
      | replace choice' rest' =>
          rw [choice] at choice'
          cases choice'
          exact ih rest'

end Reading

/-- Reading goes on from a word until the word is complete or nothing is left. -/
def ReadsOn (g : Grammar) (k : Nat) (word : Lookahead) (symbols : List Symbol) (w : Lookahead) : Prop :=
  ∃ v z, Reading g symbols v z ∧ w.terminals = word.terminals ++ v ∧ (w.isComplete k = true ∨ z = []) ∧
    (word.Within k → w.Within k)

namespace ReadsOn

variable {word inner longer w : Lookahead} {rest : List Symbol}

theorem of_isComplete (complete : word.isComplete k = true) (symbols : List Symbol) :
    ReadsOn g k word symbols word :=
  ⟨[], symbols, .stop symbols, (List.append_nil _).symm, Or.inl complete, id⟩

theorem push {t : Terminal} (pushed : word.push? t k = some longer) (h : ReadsOn g k longer rest w) :
    ReadsOn g k word (.terminal t :: rest) w := by
  obtain ⟨v, z, hread, hw, hstop, hwithin⟩ := h
  obtain ⟨hplain, _, hlonger⟩ := Lookahead.push?_eq_some_iff.mp pushed
  refine ⟨t :: v, z, .terminal hplain hread, ?_, hstop, fun h => hwithin (h.push? pushed)⟩
  rw [hw, hlonger, List.append_assoc, List.singleton_append]

theorem epsilon (h : ReadsOn g k word rest w) : ReadsOn g k word (.terminal .epsilon :: rest) w := by
  obtain ⟨v, z, hread, h⟩ := h
  exact ⟨v, z, .epsilon hread, h⟩

theorem drop {a : Nonterminal} (choice : replacement? g a = .ok none) (h : ReadsOn g k word rest w) :
    ReadsOn g k word (.nonterminal a :: rest) w := by
  obtain ⟨v, z, hread, h⟩ := h
  exact ⟨v, z, .drop choice hread, h⟩

theorem replace_of_isComplete {a : Nonterminal} {p : Production} (choice : replacement? g a = .ok (some p))
    (h : ReadsOn g k word p.symbols inner) (complete : inner.isComplete k = true) :
    ReadsOn g k word (.nonterminal a :: rest) inner := by
  obtain ⟨v, z, hread, hinner, _, hwithin⟩ := h
  exact ⟨v, z ++ rest, .replace choice (hread.append_right rest), hinner, Or.inl complete, hwithin⟩

/-- A replacement that leaves the word open has been read to its end. -/
theorem replace {a : Nonterminal} {p : Production} (choice : replacement? g a = .ok (some p))
    (h : ReadsOn g k word p.symbols inner) (hopen : ¬inner.isComplete k = true) (h' : ReadsOn g k inner rest w) :
    ReadsOn g k word (.nonterminal a :: rest) w := by
  obtain ⟨v, z, hread, hinner, hstop, hwithin⟩ := h
  obtain ⟨v', z', hread', hw, hstop', hwithin'⟩ := h'
  obtain rfl : z = [] := hstop.resolve_left hopen
  refine ⟨v ++ v', z', .replace choice ((hread.append_right rest).trans hread'), ?_, hstop', hwithin' ∘ hwithin⟩
  rw [hw, hinner, List.append_assoc]

end ReadsOn

theorem readsOn_extend {active : List Nonterminal} {word : Lookahead} {symbols : List Symbol}
    {result : { w : Lookahead // word.length ≤ w.length }} (h : extend g k active word symbols = .ok result) :
    ReadsOn g k word symbols result.val := by
  fun_induction extend g k active word symbols with
  | case1 active word =>
      cases h
      exact ⟨[], [], .stop [], (List.append_nil _).symm, Or.inr rfl, id⟩
  | case2 active word t rest push complete =>
      cases h
      exact .of_isComplete complete _
  | case3 active word t rest push hopen ih =>
      have hepsilon : t = .epsilon := by
        by_contra hplain
        rw [Lookahead.push?_eq_some_iff.mpr ⟨hplain, Bool.eq_false_iff.mpr hopen, rfl⟩] at push
        cases push
      rw [hepsilon]
      exact .epsilon (ih h)
  | case4 active word t rest longer push grows complete =>
      cases h
      exact .push push (.of_isComplete complete rest)
  | case5 active word t rest longer push grows hopen ih =>
      obtain ⟨inner, hinner, rfl⟩ := map_eq_ok_iff.mp h
      exact .push push (ih hinner)
  | case6 => cases h
  | case7 active word a rest choice ih => exact .drop choice (ih h)
  | case8 => cases h
  | case9 => cases h
  | case10 active word a rest p choice fresh inner grows hextend complete ih =>
      cases h
      exact .replace_of_isComplete choice (ih hextend) complete
  | case11 active word a rest p choice fresh inner grows hextend hopen ih ih' =>
      obtain ⟨later, hlater, rfl⟩ := map_eq_ok_iff.mp h
      exact .replace choice (ih hextend) hopen (ih' hlater)

/-- The word of a production is read from its right-hand side, up to its end unless the word is complete. -/
theorem reading_of_ofProduction {p : Production} {w : Lookahead} (plain : p.isEpsilon = false)
    (h : ofProduction g k p = .ok w) :
    w.Within k ∧ ∃ z, Reading g p.symbols w.terminals z ∧ (w.isComplete k = true ∨ z = []) := by
  rw [ofProduction, plain, if_neg Bool.false_ne_true, map_eq_ok_iff] at h
  obtain ⟨result, hresult, rfl⟩ := h
  obtain ⟨v, z, hread, hw, hstop, hwithin⟩ := readsOn_extend hresult
  rw [show result.val.terminals = v from hw]
  exact ⟨hwithin (Lookahead.within_empty k), z, hread, hstop⟩

end First

end PredictiveParsing
