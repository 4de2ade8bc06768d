import Mathlib.Data.Set.Finite.Lattice
import Mathlib.Logic.Relation
import Mathlib.Order.Interval.Finset.Nat
import Mathlib.Order.Preorder.Finite
import Mathlib.Order.WellFounded
import PredictiveParsing.Proofs.Grammar.Leftmost
import PredictiveParsing.Proofs.Parser.Simulation

/-! # Termination

Two kinds of moves leave the input alone: a nonterminal is replaced, and an end marker that belongs to a production
is taken from the stack at the end of the input. On a finite source a run that goes on for ever makes no other moves
from some point on, so the window and with it every prediction stays the same. Its stack then has low points, below
which it never falls again, and there are infinitely many of them. At a low point a nonterminal is on top, at infinitely
many of them the same one, and any two of these show how it comes back to itself. The other way round, a nonterminal
that comes back to itself does so again and again. -/

namespace PredictiveParsing

/-- Whether a source comes to an end. -/
def TokenSource.IsFinite (source : TokenSource) : Prop := ∃ n, source.stopped n = true

namespace Parser

variable {τ ε : Type} {parser : Parser τ ε} {source : TokenSource} {trace trace' : Trace τ} {base : Run τ}

/-- The first nonterminal is replaced by what is predicted for the lookahead of a run. End markers in front of it have
been passed, for which the input has to be at its end. -/
inductive Expands (parser : Parser τ ε) (run : Run τ) : List Symbol → List Symbol → Prop where
  | expand {j : Nat} {a : Nonterminal} {p : Production} {rest : List Symbol}
      (passed : j = 0 ∨ run.front = .endMarker) (predicted : parser.predict run a = some p) :
      Expands parser run (List.replicate j (.terminal .endMarker) ++ .nonterminal a :: rest)
        (List.replicate j (.terminal .endMarker) ++ (p.body ++ rest))

/-- The predictions for the lookahead of a run rewrite a nonterminal to a string that starts with itself behind `j`
end markers. -/
def Recurs (parser : Parser τ ε) (run : Run τ) (a : Nonterminal) (j : Nat) : Prop :=
  (j = 0 ∨ run.front = .endMarker) ∧
    ∃ y, Relation.TransGen (parser.Expands run) [.nonterminal a]
      (List.replicate j (.terminal .endMarker) ++ .nonterminal a :: y)

/-- After `n` steps a run has a nonterminal on top of its stack that comes back to itself behind `j` end markers. -/
structure RecursAt (parser : Parser τ ε) (source : TokenSource) (n : Nat) (a : Nonterminal) (j : Nat) : Prop where
  running : (parser.after source n).run.phase = .running
  clean : (parser.after source n).run.emptyToken = false
  top : ∃ rest, (parser.after source n).run.stack = .nonterminal a :: rest
  recurs : parser.Recurs (parser.after source n).run a j

theorem predict_congr {run run' : Run τ} (window : run'.window = run.window) (a : Nonterminal) :
    parser.predict run' a = parser.predict run a := by
  rw [predict, predict, Run.lookahead, Run.lookahead, window]

theorem front_congr {run run' : Run τ} (window : run'.window = run.window) : run'.front = run.front := by
  rw [Run.front, Run.front, window]

theorem length_consumed_le_of_moves (h : parser.Moves source trace trace') :
    trace.history.consumed.length ≤ trace'.history.consumed.length := by
  cases h with
  | pass => exact Nat.le_refl _
  | consume =>
      rw [List.length_append]
      exact Nat.le_add_right _ _
  | expand => exact Nat.le_refl _

theorem Feeds.same_view (feeds : parser.Feeds source trace) (feeds' : parser.Feeds source trace')
    (same : trace'.history.consumed.length = trace.history.consumed.length) :
    trace'.run.window = trace.run.window := by
  rw [feeds'.reads.window, feeds.reads.window, same]

/-- A sequence of numbers that goes up but not beyond a bound stays the same from some point on. -/
theorem exists_settled {f : Nat → Nat} {bound : Nat} (mono : Monotone f) (bounded : ∀ n, f n ≤ bound) :
    ∃ m, ∀ n ≥ m, f n = f m := by
  refine ⟨Function.argmin fun n => bound - f n, fun n hn => ?_⟩
  have hmin := Function.argmin_le (fun n => bound - f n) n
  have hle := mono hn
  have := bounded n
  omega

/-- After every point there is a low one, below which a sequence does not fall again. -/
theorem exists_low (height : Nat → Nat) (n : Nat) : ∃ t ≥ n, ∀ t' ≥ t, height t ≤ height t' := by
  refine ⟨n + Function.argmin fun i => height (n + i), Nat.le_add_right _ _, fun t' ht => ?_⟩
  obtain ⟨i, rfl⟩ := Nat.exists_eq_add_of_le (Nat.le_trans (Nat.le_add_right _ _) ht)
  exact Function.argmin_le (fun i => height (n + i)) i

/-- The stack of a run never falls below what it is at a low point. -/
def Low (parser : Parser τ ε) (source : TokenSource) (t : Nat) : Prop :=
  ∀ t' ≥ t, (parser.after source t).run.stack.length ≤ (parser.after source t').run.stack.length

theorem infinite_lows (parser : Parser τ ε) (source : TokenSource) (m : Nat) :
    {t | t ≥ m ∧ parser.Low source t}.Infinite := by
  apply Set.infinite_of_forall_exists_gt
  intro n
  obtain ⟨t, ht, hlow⟩ := exists_low (fun t => (parser.after source t).run.stack.length) (max m (n + 1))
  exact ⟨t, ⟨by omega, hlow⟩, by omega⟩

/-- A move that leaves the input alone either passes an end marker or expands, above what it does not reach. -/
theorem expands_of_moves {x rest z : List Symbol} {j : Nat} (moves : parser.Moves source trace trace')
    (idle : trace'.history.consumed.length = trace.history.consumed.length) (view : trace.run.window = base.window)
    (stack : trace.run.stack = z ++ rest) (hne : z ≠ []) (passed : j = 0 ∨ base.front = .endMarker)
    (chain : Relation.ReflTransGen (parser.Expands base) x (List.replicate j (.terminal .endMarker) ++ z)) :
    ∃ j' z', trace'.run.stack = z' ++ rest ∧ (j' = 0 ∨ base.front = .endMarker) ∧
      Relation.ReflTransGen (parser.Expands base) x (List.replicate j' (.terminal .endMarker) ++ z') := by
  obtain ⟨symbol, z, rfl⟩ := List.exists_cons_of_ne_nil hne
  cases moves with
  | pass clean top front more =>
      obtain ⟨rfl, rfl⟩ := List.cons.inj (stack.symm.trans top)
      refine ⟨j + 1, z, rfl, Or.inr ((front_congr view).symm.trans front), ?_⟩
      rw [List.replicate_succ', List.append_assoc]
      exact chain
  | consume => simp at idle
  | @expand _ _ b tail p root clean top predicted built =>
      obtain ⟨rfl, rfl⟩ := List.cons.inj (stack.symm.trans top)
      refine ⟨j, p.body ++ z, (List.append_assoc _ _ _).symm, passed, chain.tail ?_⟩
      exact .expand passed ((predict_congr view b).symm.trans predicted)

theorem Expands.head {a : Nonterminal} {p : Production} (predicted : parser.predict base a = some p) :
    parser.Expands base [.nonterminal a] p.body := by
  have h : parser.Expands base (List.replicate 0 _ ++ .nonterminal a :: []) (List.replicate 0 _ ++ (p.body ++ [])) :=
    .expand (Or.inl rfl) predicted
  rwa [List.append_nil] at h

theorem Expands.congr {run run' : Run τ} (window : run'.window = run.window) {x y : List Symbol}
    (h : parser.Expands run x y) : parser.Expands run' x y := by
  cases h with
  | expand passed predicted =>
      rw [← front_congr window] at passed
      rw [← predict_congr window] at predicted
      exact .expand passed predicted

theorem Recurs.congr {run run' : Run τ} (window : run'.window = run.window) {a : Nonterminal} {j : Nat}
    (h : parser.Recurs run a j) : parser.Recurs run' a j := by
  obtain ⟨passed, y, hchain⟩ := h
  rw [← front_congr window] at passed
  exact ⟨passed, y, Relation.TransGen.mono (fun _ _ => Expands.congr window) _ _ hchain⟩

section Never

variable (never : ∀ n, (parser.after source n).run.phase = .running)
include never

theorem moves_of_never (n : Nat) : parser.Moves source (parser.after source n) (parser.after source (n + 1)) :=
  moves_next (never n) (never (n + 1))

/-- A run that goes on for ever on a finite source comes to a point from which on it sees the same. -/
theorem exists_same_view (pos : 0 < parser.k) (finite : source.IsFinite) :
    ∃ m, ∀ n ≥ m, (parser.after source n).history.consumed.length = (parser.after source m).history.consumed.length ∧
      (parser.after source n).run.window = (parser.after source m).run.window := by
  obtain ⟨bound, hstopped⟩ := finite
  have hend := TokenSource.terminalAt_of_stopped (TokenSource.stopped_mono hstopped (Nat.le_succ bound))
  have hmono : Monotone fun n => (parser.after source n).history.consumed.length :=
    monotone_nat_of_le_succ fun n => length_consumed_le_of_moves (moves_of_never never n)
  have hbounded : ∀ n, (parser.after source n).history.consumed.length ≤ bound :=
    fun n => (feeds_after pos (never n)).length_consumed_le hend
  obtain ⟨m, hm⟩ := exists_settled hmono hbounded
  refine ⟨m, fun n hn => ⟨hm n hn, ?_⟩⟩
  exact (feeds_after pos (never m)).same_view (feeds_after pos (never n)) (hm n hn)

variable {m : Nat}
  (same : ∀ n ≥ m, (parser.after source n).history.consumed.length = (parser.after source m).history.consumed.length ∧
    (parser.after source n).run.window = (parser.after source m).run.window)
include same

/-- At a low point the top of the stack is a nonterminal, which is expanded. -/
theorem expand_of_low {t : Nat} (ht : t ≥ m) (low : parser.Low source t) :
    ∃ a rest p, (parser.after source t).run.stack = .nonterminal a :: rest ∧
      (parser.after source t).run.emptyToken = false ∧ parser.predict (parser.after source t).run a = some p ∧
      (parser.after source (t + 1)).run.stack = p.body ++ rest := by
  have hmoves := moves_of_never never t
  have hlow := low (t + 1) (Nat.le_succ t)
  have hidle := (same (t + 1) (by omega)).1.trans (same t ht).1.symm
  generalize parser.after source t = trace at *
  generalize parser.after source (t + 1) = trace' at *
  cases hmoves with
  | pass clean top front more =>
      simp only [top, List.length_cons] at hlow
      omega
  | consume => simp at hidle
  | expand clean top predicted built => exact ⟨_, _, _, top, clean, predicted, rfl⟩

/-- Above what lies below a low point, the stack goes through what the nonterminal on top is rewritten to. -/
theorem expands_from_low {t : Nat} (ht : t ≥ m) {x rest : List Symbol}
    (low : ∀ t' ≥ t, rest.length < (parser.after source t').run.stack.length)
    (next : (parser.after source (t + 1)).run.stack = x ++ rest) (n : Nat) :
    ∃ j z, (parser.after source (t + 1 + n)).run.stack = z ++ rest ∧
      (j = 0 ∨ (parser.after source t).run.front = .endMarker) ∧
      Relation.ReflTransGen (parser.Expands (parser.after source t).run) x
        (List.replicate j (.terminal .endMarker) ++ z) := by
  induction n with
  | zero => exact ⟨0, x, next, Or.inl rfl, .refl⟩
  | succ n ih =>
      obtain ⟨j, z, hstack, hpassed, hchain⟩ := ih
      have hne : z ≠ [] := by
        rintro rfl
        have hlow := low (t + 1 + n) (by omega)
        rw [hstack, List.nil_append] at hlow
        omega
      have hnow := same (t + 1 + n) (by omega)
      have hlater := same (t + 1 + (n + 1)) (by omega)
      exact expands_of_moves (moves_of_never never (t + 1 + n)) (hlater.1.trans hnow.1.symm)
        (hnow.2.trans (same t ht).2.symm) hstack hne hpassed hchain

/-- One and the same nonterminal is on top at infinitely many low points. -/
theorem exists_top (hparser : parser.WellFormed) :
    ∃ a, {t | (t ≥ m ∧ parser.Low source t) ∧
      ∃ rest, (parser.after source t).run.stack = .nonterminal a :: rest}.Infinite := by
  by_contra hnone
  push Not at hnone
  apply infinite_lows parser source m
  apply Set.Finite.of_finite_fibers fun t => (parser.after source t).run.stack.head?
  · -- What is on top at a low point is the head of a production.
    apply (List.finite_toSet (parser.grammar.productions.map fun p => some (Symbol.nonterminal p.head))).subset
    rintro _ ⟨t, ⟨ht, hlow⟩, rfl⟩
    obtain ⟨a, rest, p, hstack, _, hpredict, _⟩ := expand_of_low never same ht hlow
    obtain ⟨hp, rfl⟩ := mem_of_predict hparser hpredict
    exact List.mem_map.mpr ⟨p, hp, (congrArg List.head? hstack).symm⟩
  · rintro _ ⟨t, ⟨ht, hlow⟩, rfl⟩
    obtain ⟨a, rest, _, hstack, _⟩ := expand_of_low never same ht hlow
    apply (hnone a).subset
    rintro t' ⟨hlow', htop⟩
    have htop : (parser.after source t').run.stack.head? = (parser.after source t).run.stack.head? := htop
    rw [hstack] at htop
    exact ⟨hlow', List.head?_eq_some_iff.mp htop⟩

/-- From one low point to a later one with the same nonterminal on top, the nonterminal comes back to itself. -/
theorem exists_recurs_of_lows {t t' : Nat} (ht : t ≥ m) (hlt : t < t') (low : parser.Low source t) {a : Nonterminal}
    {rest rest' : List Symbol} (top : (parser.after source t).run.stack = .nonterminal a :: rest)
    (top' : (parser.after source t').run.stack = .nonterminal a :: rest') :
    ∃ j, parser.Recurs (parser.after source t).run a j := by
  obtain ⟨b, tail, p, hstack, _, hpredict, hnext⟩ := expand_of_low never same ht low
  obtain ⟨hsymbol, rfl⟩ := List.cons.inj (top.symm.trans hstack)
  obtain rfl := Symbol.nonterminal.inj hsymbol
  have habove : ∀ t' ≥ t, rest.length < (parser.after source t').run.stack.length := by
    intro t' ht'
    have hle := low t' ht'
    rw [top, List.length_cons] at hle
    omega
  obtain ⟨j, z, hlater, hpassed, hchain⟩ := expands_from_low never same ht habove hnext (t' - (t + 1))
  rw [Nat.add_sub_cancel' hlt] at hlater
  cases z with
  | nil =>
      have hlength := habove t' (Nat.le_of_lt hlt)
      rw [hlater, List.nil_append] at hlength
      omega
  | cons symbol y =>
      obtain ⟨rfl, _⟩ := List.cons.inj (top'.symm.trans hlater)
      exact ⟨j, hpassed, y, .head' (.head hpredict) hchain⟩

omit same

/-- A run that goes on for ever on a finite source comes again and again to a nonterminal that comes back to itself. -/
theorem exists_recurs_often (hparser : parser.WellFormed) (finite : source.IsFinite) :
    ∃ a j, ∀ n, ∃ n' ≥ n, parser.RecursAt source n' a j := by
  obtain ⟨m, same⟩ := exists_same_view never hparser.pos finite
  obtain ⟨a, hoften⟩ := exists_top never same hparser
  obtain ⟨t, ⟨⟨ht, hlow⟩, rest, htop⟩, _⟩ := hoften.exists_gt 0
  obtain ⟨t', ⟨_, rest', htop'⟩, hlt⟩ := hoften.exists_gt t
  obtain ⟨j, hrecurs⟩ := exists_recurs_of_lows never same ht hlt hlow htop htop'
  -- What the nonterminal is rewritten to only depends on the window, which does not change any more.
  refine ⟨a, j, fun n => ?_⟩
  obtain ⟨n', ⟨⟨hn', hlow'⟩, later, hlater⟩, hle⟩ := hoften.exists_gt n
  obtain ⟨_, _, _, _, hclean, _⟩ := expand_of_low never same hn' hlow'
  have hview := (same n' hn').2.trans (same t ht).2.symm
  exact ⟨n', Nat.le_of_lt hle, never n', hclean, ⟨later, hlater⟩, hrecurs.congr hview⟩

/-- A run that goes on for ever on a finite source comes to a nonterminal that comes back to itself. -/
theorem exists_recurs_of_never (hparser : parser.WellFormed) (finite : source.IsFinite) :
    ∃ n a j, parser.RecursAt source n a j := by
  obtain ⟨a, j, hoften⟩ := exists_recurs_often never hparser finite
  obtain ⟨n, _, hrecurs⟩ := hoften 0
  exact ⟨n, a, j, hrecurs⟩

end Never

/-- What the predictions rewrite is rewritten by the productions of the grammar. -/
theorem Expands.rewrites (hparser : parser.WellFormed) {x y : List Symbol} (h : parser.Expands base x y) :
    parser.grammar.Rewrites x y := by
  cases h with
  | expand passed predicted =>
      obtain ⟨hp, rfl⟩ := mem_of_predict hparser predicted
      exact .replace hp _ _

theorem derivesProperly_of_expands (hparser : parser.WellFormed) {x y : List Symbol}
    (h : Relation.TransGen (parser.Expands base) x y) : parser.grammar.DerivesProperly x y := by
  induction h with
  | single h => exact ⟨_, h.rewrites hparser, .refl _⟩
  | tail _ h ih =>
      obtain ⟨z, hfirst, hrest⟩ := ih
      exact ⟨z, hfirst, hrest.trans (.single (h.rewrites hparser))⟩

/-! A nonterminal that comes back to itself keeps a run going for ever, unless the action fails. -/

/-- What has not been passed of a string is on the stack of a run, above what lies below. -/
def Stands (parser : Parser τ ε) (source : TokenSource) (u : List Terminal) (rest x : List Symbol) (n : Nat) : Prop :=
  ∃ i z j ids, x = List.replicate i (.terminal .endMarker) ++ z ∧ parser.At source n ⟨u, j, ids⟩ (z ++ rest)

theorem exists_of_replicate_append {i j : Nat} {a : Nonterminal} {y z : List Symbol}
    (h : List.replicate j (Symbol.terminal .endMarker) ++ .nonterminal a :: y =
      List.replicate i (.terminal .endMarker) ++ z) :
    ∃ d ≤ j, z = List.replicate d (.terminal .endMarker) ++ .nonterminal a :: y := by
  induction i generalizing j with
  | zero => exact ⟨j, Nat.le_refl j, h.symm⟩
  | succ i ih =>
      cases j with
      | zero => cases h
      | succ j =>
          obtain ⟨d, hd, hz⟩ := ih (List.cons.inj h).2
          exact ⟨d, Nat.le_succ_of_le hd, hz⟩

section Back

variable {u : List Terminal} {rest x y : List Symbol} {a : Nonterminal} {n n₀ j j₀ : Nat} {ids₀ : List ProductionId}
  {stack : List Symbol} (hparser : parser.WellFormed) (unspoiled : source.spoiled (u.length + parser.k) = false)
  (begun : parser.At source n₀ ⟨u, j₀, ids₀⟩ stack)
include hparser unspoiled begun

/-- A run comes to the nonterminal behind the end markers. -/
theorem Stands.exists_at
    (h : parser.Stands source u rest (List.replicate j (.terminal .endMarker) ++ .nonterminal a :: y) n)
    (passed : j = 0 ∨ (parser.after source n₀).run.front = .endMarker) :
    ∃ n' ≥ n, ∃ j' ids', parser.At source n' ⟨u, j', ids'⟩ (.nonterminal a :: (y ++ rest)) := by
  obtain ⟨i, z, j', ids', hz, hat⟩ := h
  obtain ⟨d, hd, rfl⟩ := exists_of_replicate_append hz
  rw [List.append_assoc] at hat
  refine ⟨n + d, Nat.le_add_right n d, j' + d, ids', hat.pass_all hparser.pos unspoiled ?_ rfl⟩
  rw [begun.front hparser.pos] at passed
  rcases passed with rfl | hend
  · exact Or.inl (Nat.le_zero.mp hd)
  · exact Or.inr hend

variable (total : ∀ root id, ∃ root', parser.action root id = .ok root')
include total

theorem Stands.expands (h : parser.Stands source u rest x n) (step : parser.Expands (parser.after source n₀).run x y) :
    ∃ n' > n, parser.Stands source u rest y n' := by
  cases step with
  | @expand j a p tail passed predicted =>
      obtain ⟨n', hn', j', ids', hat⟩ := h.exists_at hparser unspoiled begun passed
      rw [begun.predict_eq hparser.pos, ← hat.predict_eq hparser.pos] at predicted
      have hnext := hat.expand hparser.pos unspoiled total predicted
      rw [← List.append_assoc] at hnext
      exact ⟨n' + 1, by omega, j, p.body ++ tail, j', ids' ++ [p.id], rfl, hnext⟩

theorem Stands.chain (h : parser.Stands source u rest x n)
    (steps : Relation.TransGen (parser.Expands (parser.after source n₀).run) x y) :
    ∃ n' > n, parser.Stands source u rest y n' := by
  induction steps with
  | single step => exact h.expands hparser unspoiled begun total step
  | tail _ step ih =>
      obtain ⟨n₁, hn₁, hstands⟩ := ih
      obtain ⟨n₂, hn₂, hstands⟩ := hstands.expands hparser unspoiled begun total step
      exact ⟨n₂, by omega, hstands⟩

end Back

/-- As long as the action does not fail, a nonterminal that comes back to itself keeps the run going. -/
theorem RecursAt.running_after (hparser : parser.WellFormed)
    (total : ∀ root id, ∃ root', parser.action root id = .ok root') {n j : Nat} {a : Nonterminal}
    (h : parser.RecursAt source n a j) (m : Nat) : (parser.after source m).run.phase = .running := by
  obtain ⟨running, clean, ⟨rest, top⟩, hpassed, y, hchain⟩ := h
  have hat : parser.At source n (parser.after source n).history (.nonterminal a :: rest) := ⟨running, rfl, top⟩
  rw [hat.emptyToken hparser.pos] at clean
  have hback : ∃ n' ≥ m, ∃ j' ids' rest',
      parser.At source n' ⟨(parser.after source n).history.consumed, j', ids'⟩ (.nonterminal a :: rest') := by
    induction m with
    | zero => exact ⟨n, Nat.zero_le n, _, _, rest, hat⟩
    | succ m ih =>
        obtain ⟨n₁, hn₁, j₁, ids₁, rest₁, hat₁⟩ := ih
        have hstands : parser.Stands source (parser.after source n).history.consumed rest₁ [.nonterminal a] n₁ :=
          ⟨0, [.nonterminal a], j₁, ids₁, rfl, hat₁⟩
        obtain ⟨n₂, hn₂, hstands⟩ := hstands.chain hparser clean hat total hchain
        obtain ⟨n₃, hn₃, j₃, ids₃, hat₃⟩ := hstands.exists_at hparser clean hat hpassed
        exact ⟨n₃, by omega, j₃, ids₃, y ++ rest₁, hat₃⟩
  obtain ⟨n', hn', _, _, _, hat'⟩ := hback
  exact running_of_le hat'.running hn'

variable {g : Grammar} {action : SemanticAction τ ε} {k : Nat}

/-- A parse of a finite source comes to an end unless it gets to a nonterminal that the predictions for what comes
next rewrite to itself behind end markers, as the grammar then can. If there are such end markers and the action does
not fail, the parse has no end. -/
theorem ends_or_recurs (constructed : g.Constructed) (made : ofGrammar g action k = .ok parser)
    (finite : source.IsFinite) :
    ((∃ limit, parser.parseWithin source limit ≠ none) ∨ ∃ n a j, parser.RecursAt source n a j) ∧
    ∀ n a j, parser.RecursAt source n a j →
      (∃ y, g.DerivesProperly [.nonterminal a] (List.replicate j (.terminal .endMarker) ++ .nonterminal a :: y)) ∧
        (0 < j → (∀ root id, ∃ root', action root id = .ok root') → ∀ limit, parser.parseWithin source limit = none) := by
  have hparser := wellFormed_of_ofGrammar constructed made
  obtain ⟨table, _, rfl⟩ := ofGrammar_eq_ok_iff.mp made
  constructor
  · by_cases hends : ∃ limit, parseWithin ⟨g, table, action⟩ source limit ≠ none
    · exact Or.inl hends
    · have hnever : ∀ n, (after ⟨g, table, action⟩ source n).run.phase = .running := by
        intro n
        rw [← parseWithin_eq_none_iff]
        by_contra hne
        exact hends ⟨n, hne⟩
      exact Or.inr (exists_recurs_of_never hnever hparser finite)
  · intro n a j h
    constructor
    · obtain ⟨_, y, hchain⟩ := h.recurs
      exact ⟨y, derivesProperly_of_expands hparser hchain⟩
    · intro _ total limit
      rw [parseWithin_eq_none_iff]
      exact h.running_after hparser total limit

theorem nested_ends_or_recurs :
    let parser : Parser Unit Unit := ⟨.nested, Grammar.nestedTable, .idle⟩
    let source : TokenSource := .ofList [some ⟨2⟩, some ⟨3⟩]
    (∃ limit, parser.parseWithin source limit ≠ none) ∨ ∃ n a j, parser.RecursAt source n a j :=
  (ends_or_recurs Grammar.constructed_nested (ofGrammar_eq_ok_iff.mpr ⟨_, Grammar.table_nested, rfl⟩)
    ⟨3, by decide⟩).1

/-- The parser for a terminal 2 behind any number of end markers. -/
def endless : Parser Unit Unit where
  grammar :=
    { vocabulary := ⟨3, 1⟩
      start := ⟨0⟩
      arena := #[⟨⟨0⟩, ⟨0⟩, [.terminal .endMarker, .nonterminal ⟨0⟩]⟩, ⟨⟨1⟩, ⟨0⟩, [.terminal ⟨2⟩]⟩]
      index := .ofList [((⟨0⟩ : ProductionId), 0), (⟨1⟩, 1)]
      rules := .ofList [((⟨0⟩ : Nonterminal), #[0, 1])] }
  table :=
    { k := 1
      entries := .ofList [((⟨⟨0⟩, ⟨[⟨1⟩]⟩⟩ : TableKey), (⟨0⟩ : ProductionId)), (⟨⟨0⟩, ⟨[⟨2⟩]⟩⟩, ⟨1⟩)] }
  action := .idle

theorem build_endless :
    Grammar.build ⟨3, 1⟩ ⟨0⟩
      [⟨⟨0⟩, [⟨⟨0⟩, [.terminal .endMarker, .nonterminal ⟨0⟩]⟩, ⟨⟨1⟩, [.terminal ⟨2⟩]⟩]⟩] = .ok endless.grammar := by cbv

/-- On the empty input this parser passes end markers for ever. -/
theorem endless_never_ends :
    endless.grammar.Constructed ∧ ofGrammar endless.grammar .idle 1 = .ok endless ∧
      TokenSource.IsFinite (.ofList []) ∧ ∀ limit, endless.parseWithin (.ofList []) limit = none := by
  have hconstructed := Grammar.constructed_of_build build_endless
  have hmade : ofGrammar endless.grammar .idle 1 = .ok endless :=
    ofGrammar_eq_ok_iff.mpr ⟨endless.table, by cbv, rfl⟩
  refine ⟨hconstructed, hmade, ⟨1, rfl⟩, fun limit => ?_⟩
  have hparser := wellFormed_of_ofGrammar hconstructed hmade
  have hpredict : endless.predict (endless.after (.ofList []) 0).run ⟨0⟩ =
      some ⟨⟨0⟩, ⟨0⟩, [.terminal .endMarker, .nonterminal ⟨0⟩]⟩ := rfl
  have hrecurs : endless.Recurs (endless.after (.ofList []) 0).run ⟨0⟩ 1 :=
    ⟨Or.inr rfl, [], .single (.head hpredict)⟩
  have hat : endless.RecursAt (.ofList []) 0 ⟨0⟩ 1 := ⟨rfl, rfl, ⟨[.terminal .endMarker], rfl⟩, hrecurs⟩
  rw [parseWithin_eq_none_iff]
  exact hat.running_after hparser (fun root _ => ⟨root, rfl⟩) limit

end Parser

end PredictiveParsing
