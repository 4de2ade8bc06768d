import PredictiveParsing.Grammar.Derivation
import PredictiveParsing.Proofs.Grammar.Closure

/-! # Derived strings

A derivation from two strings one after the other is a derivation from each of the two, and terminals stay as they
are. What is derived from a string without epsilon markers whose nonterminals have productions is such a string
again, as long as the grammar is closed. Without epsilon productions no derivation shortens a string. -/

namespace PredictiveParsing

/-- A member of two lists one after the other is a member of the first or of the second one. -/
theorem append_eq_append_cons_cases {α : Type} {x y before after : List α} {a : α} (h : x ++ y = before ++ a :: after) :
    (∃ c, x = before ++ a :: c ∧ after = c ++ y) ∨ ∃ c, before = x ++ c ∧ y = c ++ a :: after := by
  rcases List.append_eq_append_iff.mp h with ⟨c, rfl, rfl⟩ | ⟨c, rfl, hy⟩
  · exact Or.inr ⟨c, rfl, rfl⟩
  · rcases List.cons_eq_append_iff.mp hy with ⟨rfl, rfl⟩ | ⟨c, rfl, rfl⟩
    · exact Or.inr ⟨[], by simp, rfl⟩
    · exact Or.inl ⟨c, rfl, rfl⟩

namespace Production

variable {p : Production}

theorem body_of_isEpsilon (epsilon : p.isEpsilon = true) : p.body = [] := by
  rw [body, if_pos epsilon]

theorem body_of_plain (plain : p.isEpsilon = false) : p.body = p.symbols := by
  rw [body, plain, if_neg Bool.false_ne_true]

theorem mem_symbols_of_mem_body {symbol : Symbol} (mem : symbol ∈ p.body) : symbol ∈ p.symbols := by
  unfold body at mem
  split at mem
  · cases mem
  · exact mem

/-- A production that is not an epsilon production holds no epsilon marker. -/
theorem WellFormed.ne_epsilon (h : p.WellFormed) {symbol : Symbol} (mem : symbol ∈ p.body) :
    symbol ≠ .terminal .epsilon := by
  cases hkind : p.isEpsilon with
  | true =>
      rw [body_of_isEpsilon hkind] at mem
      cases mem
  | false =>
      rw [body_of_plain hkind] at mem
      rcases h with h | ⟨_, hfree⟩
      · rw [isEpsilon, h] at hkind
        cases hkind
      · exact hfree symbol mem

theorem WellFormed.symbols_ne_epsilon (h : p.WellFormed) (plain : p.isEpsilon = false) :
    ∀ symbol ∈ p.symbols, symbol ≠ .terminal .epsilon := by
  rw [← body_of_plain plain]
  exact fun _ => h.ne_epsilon

/-- A production with a nonterminal on the right is not an epsilon production. -/
theorem WellFormed.isEpsilon_of_nonterminal (h : p.WellFormed) {a : Nonterminal} (mem : .nonterminal a ∈ p.symbols) :
    p.isEpsilon = false := by
  by_contra hepsilon
  rw [h.symbols_of_isEpsilon (by simpa using hepsilon)] at mem
  simp at mem

theorem WellFormed.body_ne_nil (h : p.WellFormed) (plain : p.isEpsilon = false) : p.body ≠ [] := by
  rw [body_of_plain plain]
  rcases h with h | ⟨hne, _⟩
  · simp [h]
  · exact hne

end Production

namespace Grammar

variable {g : Grammar} {x y z : List Symbol} {p : Production}

theorem derives_body (mem : p ∈ g.productions) : g.Derives [.nonterminal p.head] p.body := by
  have h := Rewrites.replace mem [] []
  rw [List.nil_append, List.nil_append, List.append_nil] at h
  exact .single h

/-- A nonterminal on the right of a production comes up where the head does. -/
theorem derives_occurrence (hg : g.WellFormed) (mem : p ∈ g.productions) {before after : List Symbol} {a : Nonterminal}
    (occurs : p.symbols = before ++ .nonterminal a :: after) {z : List Symbol}
    (derives : g.Derives z (x ++ .nonterminal p.head :: y)) :
    g.Derives z ((x ++ before) ++ .nonterminal a :: (after ++ y)) := by
  have hplain : p.isEpsilon = false :=
    (hg.wellFormed p mem).isEpsilon_of_nonterminal (Production.mem_symbols_of_occurs occurs)
  have hbody := (((derives_body mem).append_right y).append_left x)
  rw [Production.body_of_plain hplain, occurs] at hbody
  refine derives.trans ?_
  simpa using hbody

namespace Derives

/-- A derivation from two strings one after the other is one from each of the two. -/
theorem exists_of_append (h : g.Derives (x ++ y) z) : ∃ u v, z = u ++ v ∧ g.Derives x u ∧ g.Derives y v := by
  generalize hs : x ++ y = s at h
  induction h generalizing x y with
  | refl => exact ⟨x, y, hs.symm, .refl x, .refl y⟩
  | head first _ ih =>
      cases first with
      | @replace p mem before after =>
          rcases append_eq_append_cons_cases hs with ⟨c, rfl, rfl⟩ | ⟨c, rfl, rfl⟩
          · obtain ⟨u, v, hz, hx, hy⟩ := ih (x := before ++ (p.body ++ c)) (y := y) (by simp)
            exact ⟨u, v, hz, .head (.replace mem before c) hx, hy⟩
          · obtain ⟨u, v, hz, hx, hy⟩ := ih (x := x) (y := c ++ (p.body ++ after)) (by simp)
            exact ⟨u, v, hz, hx, .head (.replace mem c after) hy⟩

/-- Nothing is derived from terminals but themselves. -/
theorem eq_of_terminals {u : List Terminal} (h : g.Derives (u.map .terminal) z) : z = u.map .terminal := by
  generalize hs : u.map Symbol.terminal = s at h
  induction h with
  | refl => rfl
  | head first =>
      cases first with
      | @replace p mem before after =>
          have hhead : Symbol.nonterminal p.head ∈ u.map Symbol.terminal := by
            rw [hs]
            exact List.mem_append_right before List.mem_cons_self
          simp at hhead

theorem eq_nil_of_nil (h : g.Derives [] z) : z = [] := eq_of_terminals (u := []) h

theorem exists_of_terminal {t : Terminal} (h : g.Derives (.terminal t :: x) z) :
    ∃ z', z = .terminal t :: z' ∧ g.Derives x z' := by
  obtain ⟨u, v, rfl, hfirst, hlater⟩ := exists_of_append (x := [.terminal t]) h
  obtain rfl := eq_of_terminals (u := [t]) hfirst
  exact ⟨v, rfl, hlater⟩

end Derives

/-- No epsilon marker, and only nonterminals that have productions. -/
def Proper (g : Grammar) (x : List Symbol) : Prop :=
  ∀ symbol ∈ x, symbol ≠ .terminal .epsilon ∧ ∀ a, symbol = .nonterminal a → g.defines a = true

theorem proper_append : g.Proper (x ++ y) ↔ g.Proper x ∧ g.Proper y := List.forall_mem_append

section

variable (hg : g.WellFormed) (closed : g.Closed)
include hg closed

theorem proper_body (mem : p ∈ g.productions) : g.Proper p.body := by
  intro symbol hsymbol
  refine ⟨(hg.wellFormed p mem).ne_epsilon hsymbol, ?_⟩
  rintro a rfl
  exact closed.defines mem (Production.mem_symbols_of_mem_body hsymbol)

/-- What is derived from a proper string is proper. -/
theorem Proper.of_derives (h : g.Proper x) (derives : g.Derives x y) : g.Proper y := by
  induction derives with
  | refl => exact h
  | head first _ ih =>
      apply ih
      cases first with
      | @replace p mem before after =>
          have hbefore := proper_append.mp h
          have hafter := List.forall_mem_cons.mp hbefore.2
          exact proper_append.mpr ⟨hbefore.1, proper_append.mpr ⟨proper_body hg closed mem, hafter.2⟩⟩

end

/-- No production is an epsilon production. -/
def EpsilonFree (g : Grammar) : Prop := ∀ p ∈ g.productions, p.isEpsilon = false

instance (g : Grammar) : Decidable g.EpsilonFree := by unfold EpsilonFree; infer_instance

namespace EpsilonFree

variable (free : g.EpsilonFree) (hg : g.WellFormed)
include free hg

theorem length_le_of_derives (h : g.Derives x y) : x.length ≤ y.length := by
  induction h with
  | refl => exact Nat.le_refl _
  | head first _ ih =>
      refine Nat.le_trans ?_ ih
      cases first with
      | @replace p mem before after =>
          have hbody := List.length_pos_iff.mpr ((hg.wellFormed p mem).body_ne_nil (free p mem))
          simp only [List.length_append, List.length_cons]
          omega

theorem eq_nil_of_derives_nil (h : g.Derives x []) : x = [] := by
  have hlength := free.length_le_of_derives hg h
  exact List.eq_nil_of_length_eq_zero (Nat.le_zero.mp hlength)

end EpsilonFree

end Grammar

end PredictiveParsing
