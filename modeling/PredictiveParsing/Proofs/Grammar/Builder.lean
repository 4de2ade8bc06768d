import PredictiveParsing.Grammar.Builder
import PredictiveParsing.Proofs.Failure

/-! # The builder and step-by-step construction

The builder goes on after a failure, with whatever it has put together by then; a construction step by step stops. All
the same they give the same result. As long as nothing has failed the builder is in the state of the construction, so
the first error of the one is the first error of the other; and an error that is on record stays there, whatever is
done to the grammar that goes with it. Each part of the builder keeps this agreement with the part of the construction
that it stands for. -/

namespace PredictiveParsing

/-- What every step keeps of a computation that goes on, beside one that stops, holds when both are through a list. -/
theorem foldl_beside_foldlM {σ τ ε α : Type} {R : σ → Except ε τ → Prop} {f : σ → α → σ} {f' : τ → α → Except ε τ}
    (step : ∀ s r x, R s r → R (f s x) (r >>= (f' · x))) {s : σ} {r : Except ε τ} (h : R s r) (xs : List α) :
    R (xs.foldl f s) (r >>= (xs.foldlM f' ·)) := by
  induction xs generalizing s r with
  | nil =>
      have hsame : (r >>= fun t => [].foldlM f' t) = r := bind_pure r
      rwa [hsame]
  | cons x rest ih =>
      simpa only [List.foldl_cons, List.foldlM_cons, bind_assoc] using ih (step s r x h)

namespace Builder

variable {b : Builder} {e : GrammarError} {state : Builder × Option Production} {id : ProductionId} {head : Nonterminal}
  {symbol : Symbol} {g : Grammar}

/-! An error stays on record. -/

theorem error?_fail (h : b.error? = some e) (later : GrammarError) : (b.fail later).error? = some e := by
  rw [fail, h]
  rfl

theorem error?_fail_of_none (h : b.error? = none) (e : GrammarError) : (b.fail e).error? = some e := by
  rw [fail, h]
  rfl

theorem error?_push (h : state.1.error? = some e) : (push id head state symbol).1.error? = some e := by
  unfold push
  dsimp only
  split
  · exact h
  · exact error?_fail h _

theorem error?_complete (h : state.1.error? = some e) : (complete id head state).1.error? = some e := by
  obtain ⟨b, pending⟩ := state
  cases pending with
  | some p => exact h
  | none =>
      rw [complete, if_pos (Option.isSome_of_eq_some h)]
      exact h

theorem error?_foldl_push (h : state.1.error? = some e) (symbols : List Symbol) :
    (symbols.foldl (push id head) state).1.error? = some e := by
  induction symbols generalizing state with
  | nil => exact h
  | cons symbol rest ih => exact ih (error?_push h)

/-- An error from before the insertion stays, whether there is a production to insert or not. -/
theorem error?_add_of_complete {alternative : Alternative}
    (h : (complete alternative.id head
      (alternative.symbols.foldl (push alternative.id head) (b, none))).1.error? = some e) :
    (b.add head alternative).error? = some e := by
  unfold add
  split
  · rename_i hstate
    rwa [hstate] at h
  · rename_i hstate
    rw [hstate] at h
    split
    · exact h
    · exact error?_fail h _

theorem error?_add (h : b.error? = some e) (head : Nonterminal) (alternative : Alternative) :
    (b.add head alternative).error? = some e :=
  error?_add_of_complete (error?_complete (error?_foldl_push h alternative.symbols))

/-! While nothing has failed, the builder is in the state of the construction. -/

/-- A pending production beside one that is made step by step for a grammar. -/
def Drafts (g : Grammar) (state : Builder × Option Production) : Except GrammarError Production → Prop
  | .ok p => state = (⟨g, none⟩, some p)
  | .error e => state.1.error? = some e

/-- A builder beside a grammar that is put together step by step. -/
def Agrees (b : Builder) : Except GrammarError Grammar → Prop
  | .ok g => b = ⟨g, none⟩
  | .error e => b.error? = some e

theorem drafts_begin (g : Grammar) (id : ProductionId) (head : Nonterminal) (symbol : Symbol) :
    Drafts g (push id head (⟨g, none⟩, none) symbol) (Production.begin g.vocabulary id head symbol) := by
  cases hbegin : Production.begin g.vocabulary id head symbol with
  | ok p => simp only [push, hbegin, Drafts]
  | error e => simp only [push, hbegin, Drafts, error?_fail_of_none]

theorem Drafts.push {r : Except GrammarError Production} (h : Drafts g state r) (symbol : Symbol) :
    Drafts g (push id head state symbol) (r >>= (Production.extend g.vocabulary · symbol)) := by
  cases r with
  | error e => exact error?_push h
  | ok p =>
      obtain rfl : state = (⟨g, none⟩, some p) := h
      change Drafts g _ (p.extend g.vocabulary symbol)
      cases hextend : p.extend g.vocabulary symbol with
      | ok q => simp only [Builder.push, hextend, Drafts]
      | error e => simp only [Builder.push, hextend, Drafts, error?_fail_of_none]

theorem Drafts.complete {r : Except GrammarError Production} (h : Drafts g state r) :
    Drafts g (complete id head state) r := by
  cases r with
  | error e => exact error?_complete h
  | ok p =>
      obtain rfl : state = (⟨g, none⟩, some p) := h
      rfl

/-- Pushing the symbols of an alternative makes the production that the alternative describes. -/
theorem drafts_produce (g : Grammar) (head : Nonterminal) (alternative : Alternative) :
    Drafts g (complete alternative.id head (alternative.symbols.foldl (push alternative.id head) (⟨g, none⟩, none)))
      (Grammar.produce g.vocabulary head alternative) := by
  rw [Grammar.produce]
  cases alternative.symbols with
  | nil => exact drafts_begin g alternative.id head (.terminal .epsilon)
  | cons first rest =>
      apply Drafts.complete
      rw [List.foldl_cons]
      exact foldl_beside_foldlM (fun _ _ symbol h => h.push symbol) (drafts_begin g alternative.id head first) rest

theorem Agrees.add {r : Except GrammarError Grammar} (h : b.Agrees r) (head : Nonterminal)
    (alternative : Alternative) :
    (b.add head alternative).Agrees
      (r >>= fun g => do g.insert head (← Grammar.produce g.vocabulary head alternative)) := by
  cases r with
  | error e => exact error?_add h head alternative
  | ok g =>
      obtain rfl : b = ⟨g, none⟩ := h
      have hdraft := drafts_produce g head alternative
      change Agrees _ (Grammar.produce g.vocabulary head alternative >>= g.insert head)
      cases hproduce : Grammar.produce g.vocabulary head alternative with
      | error e =>
          rw [hproduce] at hdraft
          exact error?_add_of_complete hdraft
      | ok p =>
          rw [hproduce] at hdraft
          change Agrees _ (g.insert head p)
          rw [Builder.add, show complete alternative.id head _ = _ from hdraft]
          cases hinsert : g.insert head p with
          | ok g' => simp only [hinsert, Agrees]
          | error e => simp only [hinsert, Agrees, error?_fail_of_none]

theorem Agrees.addRule {r : Except GrammarError Grammar} (h : b.Agrees r) (rule : Rule) :
    (b.addRule rule).Agrees (r >>= (Grammar.insertRule · rule)) :=
  foldl_beside_foldlM (fun _ _ alternative h => h.add rule.head alternative) h rule.alternatives

theorem Agrees.finish {r : Except GrammarError Grammar} (h : b.Agrees r) :
    b.finish = do
      let g ← r
      let _ ← g.check
      return g := by
  unfold Builder.finish
  cases r with
  | error e =>
      rw [show b.error? = some e from h]
      rfl
  | ok g =>
      obtain rfl : b = ⟨g, none⟩ := h
      rfl

end Builder

namespace Grammar

/-- The builder gives the grammar or the error that the construction step by step gives. -/
theorem build_eq_assemble (v : Vocabulary) (start : Nonterminal) (rules : List Rule) :
    build v start rules = assemble v start rules := by
  rw [build, assemble]
  cases ofStart v start with
  | error e => rfl
  | ok g =>
      have hstart : (⟨g, none⟩ : Builder).Agrees (.ok g) := rfl
      have hrules := foldl_beside_foldlM (R := Builder.Agrees) (fun _ _ rule h => h.addRule rule) hstart rules
      exact hrules.finish

end Grammar

end PredictiveParsing
