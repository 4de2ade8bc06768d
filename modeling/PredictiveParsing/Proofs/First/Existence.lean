import PredictiveParsing.Proofs.First.Sets
import PredictiveParsing.Proofs.Grammar.Closure

/-! # Existence of FIRST words

A production has no word if its right-hand side is read to its own head again before anything is put out. In a closed
grammar nothing else can go wrong: the search for a word only fails at a head that is being replaced, and the loop
that it has found there is one of the head's own first alternative. The bound plays no part in this, so the words
exist for every bound or for none, and a smaller bound cuts them short. -/

namespace PredictiveParsing

namespace First

variable {g : Grammar} {k : Nat} {p : Production}

/-- The right-hand side of a production is read to its head without output. -/
def Loops (g : Grammar) (p : Production) : Prop :=
  p.isEpsilon = false ∧ ∃ z, Reading g p.symbols [] (.nonterminal p.head :: z)

/-- A nonterminal with an alternative that is not its epsilon production is not dropped. -/
theorem replacement?_ne_none (hg : g.WellFormed) (mem : p ∈ g.productions) (plain : p.isEpsilon = false) :
    replacement? g p.head ≠ .ok none := by
  intro h
  obtain ⟨_, hfind⟩ := replacement?_eq_ok_iff.mp h
  have hkind := List.find?_eq_none.mp hfind p (hg.mem_alternatives_iff.mpr ⟨mem, rfl⟩)
  simp [plain] at hkind

/-- Reading comes to a nonterminal without output either inside a first string or behind it. -/
theorem Reading.silent_cases {x y z : List Symbol} {a : Nonterminal}
    (h : Reading g (x ++ y) [] (.nonterminal a :: z)) :
    (∃ z', Reading g x [] (.nonterminal a :: z')) ∨ (Reading g x [] [] ∧ Reading g y [] (.nonterminal a :: z)) := by
  rcases h.append_cases with ⟨z', hx, hz⟩ | ⟨v₁, v₂, hv, hx, hy⟩
  · cases z' with
    | nil =>
        obtain rfl : .nonterminal a :: z = y := hz
        exact Or.inr ⟨hx, .stop _⟩
    | cons symbol z' =>
        obtain ⟨rfl, _⟩ := List.cons.inj hz
        exact Or.inl ⟨z', hx⟩
  · obtain ⟨rfl, rfl⟩ := List.append_eq_nil_iff.mp hv.symm
    exact Or.inr ⟨hx, hy⟩

/-- A string that is read to its end without output leaves the word as it is. -/
theorem eq_of_silent {active : List Nonterminal} {word : Lookahead} {symbols : List Symbol}
    {result : { w : Lookahead // word.length ≤ w.length }} (silent : Reading g symbols [] [])
    (h : extend g k active word symbols = .ok result) : result.val = word := by
  obtain ⟨v, z, hread, hw, _, _⟩ := readsOn_extend h
  have hv : v = [] := by
    rcases silent.comparable hread with ⟨u, rfl, hu⟩ | ⟨u, hu, _⟩
    · exact hu.eq_nil_of_nil.1
    · exact (List.append_eq_nil_iff.mp hu.symm).1
  rw [hv, List.append_nil] at hw
  exact congrArg Lookahead.mk hw

/-- The search fails on a string that is read to a nonterminal that is being replaced. -/
theorem extend_ne_ok_of_silent {active : List Nonterminal} {word : Lookahead} {symbols z : List Symbol}
    {a : Nonterminal} (kept : replacement? g a ≠ .ok none) (hactive : a ∈ active)
    (hopen : word.isComplete k = false) (silent : Reading g symbols [] (.nonterminal a :: z))
    (result : { w : Lookahead // word.length ≤ w.length }) : extend g k active word symbols ≠ .ok result := by
  intro h
  fun_induction extend g k active word symbols generalizing z with
  | case1 => cases silent
  | case2 active word t rest push complete =>
      rw [hopen] at complete
      cases complete
  | case3 active word t rest push _ ih =>
      cases silent with
      | epsilon silent => exact ih hactive hopen silent result h
  | case4 active word t rest longer push =>
      cases silent with
      | epsilon => exact absurd rfl (Lookahead.push?_eq_some_iff.mp push).1
  | case5 active word t rest longer push =>
      cases silent with
      | epsilon => exact absurd rfl (Lookahead.push?_eq_some_iff.mp push).1
  | case6 => cases h
  | case7 active word b rest choice ih =>
      cases silent with
      | stop => exact kept choice
      | drop _ silent => exact ih hactive hopen silent result h
      | replace choice' =>
          rw [choice] at choice'
          cases choice'
  | case8 => cases h
  | case9 => cases h
  | case10 active word b rest q choice fresh inner grows hextend complete ih =>
      cases silent with
      | stop => exact fresh hactive
      | drop choice' =>
          rw [choice] at choice'
          cases choice'
      | replace choice' silent =>
          rw [choice] at choice'
          cases choice'
          rcases silent.silent_cases with ⟨z', hinside⟩ | ⟨hthrough, _⟩
          · exact ih (List.mem_cons_of_mem b hactive) hopen hinside _ hextend
          · rw [show inner = word from eq_of_silent hthrough hextend, hopen] at complete
            cases complete
  | case11 active word b rest q choice fresh inner grows hextend _ ih ih' =>
      cases silent with
      | stop => exact fresh hactive
      | drop choice' =>
          rw [choice] at choice'
          cases choice'
      | replace choice' silent =>
          rw [choice] at choice'
          cases choice'
          rcases silent.silent_cases with ⟨z', hinside⟩ | ⟨hthrough, hbehind⟩
          · exact ih (List.mem_cons_of_mem b hactive) hopen hinside _ hextend
          · obtain rfl : inner = word := eq_of_silent hthrough hextend
            obtain ⟨later, hlater, _⟩ := map_eq_ok_iff.mp h
            rw [dif_pos rfl] at ih'
            rw [if_pos rfl] at hlater
            exact ih' hactive hopen hbehind _ hlater

/-- What keeps track of the heads that are being replaced: each has an alternative that is read to the string at hand
without output. -/
def Tracks (g : Grammar) (active : List Nonterminal) (symbols : List Symbol) : Prop :=
  ∀ a ∈ active, ∃ p ∈ g.productions, p.head = a ∧ p.isEpsilon = false ∧ ∃ y, Reading g p.symbols [] (symbols ++ y)

theorem Tracks.of_reading {active : List Nonterminal} {x y : List Symbol} (h : Tracks g active x)
    (silent : ∀ z, Reading g (x ++ z) [] (y ++ z)) : Tracks g active y := by
  intro a ha
  obtain ⟨p, mem, hhead, plain, z, hread⟩ := h a ha
  exact ⟨p, mem, hhead, plain, z, hread.trans (silent z)⟩

/-- In a closed grammar the search only fails at a head that is being replaced, which then has an alternative that
loops. -/
theorem exists_loop_of_extend_error (hg : g.WellFormed) (closed : g.Closed) {active : List Nonterminal}
    {word : Lookahead} {symbols : List Symbol} {e : GrammarError}
    (defined : ∀ a, .nonterminal a ∈ symbols → g.defines a = true) (tracks : Tracks g active symbols)
    (h : extend g k active word symbols = .error e) :
    ∃ p ∈ g.productions, Loops g p ∧ e = .leftRecursion p.head := by
  fun_induction extend g k active word symbols with
  | case1 => cases h
  | case2 => cases h
  | case3 active word t rest push hopen ih =>
      have hepsilon : t = .epsilon := by
        by_contra hplain
        rw [Lookahead.push?_eq_some_iff.mpr ⟨hplain, Bool.eq_false_iff.mpr hopen, rfl⟩] at push
        cases push
      subst hepsilon
      exact ih (fun a ha => defined a (List.mem_cons_of_mem _ ha))
        (tracks.of_reading fun z => .epsilon (.stop _)) h
  | case4 => cases h
  | case5 active word t rest longer push grows hopen ih =>
      refine ih (fun a ha => defined a (List.mem_cons_of_mem _ ha)) ?_ (map_eq_error_iff.mp h)
      intro a ha
      cases ha
  | case6 active word a rest e' choice =>
      have hfind : replacement? g a = .ok _ := replacement?_eq_ok_iff.mpr ⟨defined a List.mem_cons_self, rfl⟩
      rw [hfind] at choice
      cases choice
  | case7 active word a rest choice ih =>
      exact ih (fun b hb => defined b (List.mem_cons_of_mem _ hb))
        (tracks.of_reading fun z => .drop choice (.stop _)) h
  | case8 active word a rest q choice stale =>
      cases h
      obtain ⟨p, mem, hhead, plain, y, hread⟩ := tracks a stale
      exact ⟨p, mem, ⟨plain, rest ++ y, by rw [hhead]; exact hread⟩, by rw [hhead]⟩
  | case9 active word a rest q choice fresh e' hextend ih =>
      cases h
      obtain ⟨mem, hhead, plain⟩ := mem_of_replacement? hg choice
      refine ih (fun b hb => closed.defines mem hb) (fun b hb => ?_) hextend
      rcases List.mem_cons.mp hb with rfl | hb
      · exact ⟨q, mem, hhead, plain, [], by rw [List.append_nil]; exact .stop _⟩
      · obtain ⟨p, hp, hhead', plain', y, hread⟩ := tracks b hb
        refine ⟨p, hp, hhead', plain', rest ++ y, hread.trans ?_⟩
        exact .replace choice (.stop _)
  | case10 => cases h
  | case11 active word a rest q choice fresh inner grows hextend hcontinue ih ih' =>
      refine ih' (fun b hb => defined b (List.mem_cons_of_mem _ hb)) ?_ (map_eq_error_iff.mp h)
      split
      · rename_i hsame
        -- The replacement has put nothing out, so it has been read to its end.
        obtain ⟨v, z, hread, hw, hstop, _⟩ := readsOn_extend hextend
        obtain rfl : z = [] := hstop.resolve_left hcontinue
        have hv : v = [] := by
          have hlength : inner.length = word.length + v.length := by
            rw [Lookahead.length, show inner.terminals = word.terminals ++ v from hw, List.length_append]
            rfl
          exact List.eq_nil_of_length_eq_zero (by omega)
        subst hv
        exact tracks.of_reading fun z => .replace choice (hread.append_right (rest ++ z))
      · intro b hb
        cases hb

/-- The word of a production exists for a bound as soon as no production of the grammar loops, and not if it loops
itself. -/
theorem ofProduction_ne_ok_of_loops (hg : g.WellFormed) (pos : 0 < k) (mem : p ∈ g.productions) (loops : Loops g p)
    (w : Lookahead) : ofProduction g k p ≠ .ok w := by
  obtain ⟨plain, z, silent⟩ := loops
  intro h
  rw [ofProduction, plain, if_neg Bool.false_ne_true, map_eq_ok_iff] at h
  obtain ⟨result, hresult, _⟩ := h
  exact extend_ne_ok_of_silent (replacement?_ne_none hg mem plain) (List.mem_singleton_self _)
    (Lookahead.isComplete_empty pos) silent result hresult

theorem exists_loop_of_ofProduction_error (hg : g.WellFormed) (closed : g.Closed) (mem : p ∈ g.productions)
    {e : GrammarError} (h : ofProduction g k p = .error e) :
    ∃ q ∈ g.productions, Loops g q ∧ e = .leftRecursion q.head := by
  unfold ofProduction at h
  split at h
  · cases h
  · rename_i hkind
    refine exists_loop_of_extend_error hg closed (fun a ha => closed.defines mem ha) ?_ (map_eq_error_iff.mp h)
    intro a ha
    obtain rfl := List.mem_singleton.mp ha
    exact ⟨p, mem, rfl, Bool.eq_false_iff.mpr hkind, [], by rw [List.append_nil]; exact .stop _⟩

/-- Of two words that are read from a string, each until it is complete or nothing is left, the one under the smaller
bound is the other one cut short. -/
theorem Reading.eq_truncate {j : Nat} (le : j ≤ k) {v w : Lookahead} {x z z' : List Symbol} (hv : v.Within j)
    (hvread : Reading g x v.terminals z) (hvstop : v.isComplete j = true ∨ z = []) (hw : w.Within k)
    (hwread : Reading g x w.terminals z') (hwstop : w.isComplete k = true ∨ z' = []) : v = w.truncate j := by
  rcases hvread.comparable hwread with ⟨u, hu, hlater⟩ | ⟨u, hu, hlater⟩
  · obtain ⟨terminals⟩ := w
    obtain rfl : terminals = v.terminals ++ u := hu
    rcases hvstop with hcomplete | rfl
    · exact (Lookahead.truncate_append hcomplete hv.length_le hw).symm
    · rw [hlater.eq_nil_of_nil.1, List.append_nil]
      exact (Lookahead.truncate_of_length_le hv.length_le).symm
  · obtain ⟨terminals⟩ := v
    obtain rfl : terminals = w.terminals ++ u := hu
    have hnil : u = [] := by
      rcases hwstop with hcomplete | rfl
      · exact Lookahead.eq_nil_of_isComplete (Lookahead.isComplete_of_le le hcomplete) hv
      · exact hlater.eq_nil_of_nil.1
    subst hnil
    rw [List.append_nil] at hv ⊢
    exact (Lookahead.truncate_of_length_le hv.length_le).symm

/-- A smaller bound cuts the word of a production short. -/
theorem ofProduction_truncate {j : Nat} (le : j ≤ k) {v w : Lookahead} (hv : ofProduction g j p = .ok v)
    (hw : ofProduction g k p = .ok w) : v = w.truncate j := by
  cases hkind : p.isEpsilon with
  | true =>
      rw [ofProduction, hkind, if_pos rfl] at hv hw
      cases hv
      cases hw
      exact (Lookahead.truncate_of_length_le (Nat.zero_le j)).symm
  | false =>
      obtain ⟨hvwithin, z, hvread, hvstop⟩ := reading_of_ofProduction hkind hv
      obtain ⟨hwwithin, z', hwread, hwstop⟩ := reading_of_ofProduction hkind hw
      exact hvread.eq_truncate le hvwithin hvstop hwwithin hwread hwstop

end First

namespace Grammar

variable {g : Grammar} {k : Nat}

/-- The FIRST sets of a closed grammar exist exactly if no production loops, whatever the bound. -/
theorem exists_firstSets_iff (hg : g.WellFormed) (closed : g.Closed) (pos : 0 < k) :
    (∃ firsts, g.firstSets k = .ok firsts) ↔ ∀ p ∈ g.productions, ¬First.Loops g p := by
  constructor
  · rintro ⟨firsts, h⟩ p mem loops
    obtain ⟨w, hw⟩ := exists_ofProduction_of_firstSets h mem
    exact First.ofProduction_ne_ok_of_loops hg pos mem loops w hw
  · intro h
    have hwords : ∃ words, g.productions.mapM (fun p => do return (p, ← First.ofProduction g k p)) = .ok words := by
      apply exists_mapM_ok
      intro p mem
      cases hw : First.ofProduction g k p with
      | ok w => exact ⟨(p, w), rfl⟩
      | error e =>
          obtain ⟨q, hq, loops, _⟩ := First.exists_loop_of_ofProduction_error hg closed mem hw
          exact absurd loops (h q hq)
    obtain ⟨words, hwords⟩ := hwords
    exact ⟨_, by rw [firstSets, hwords]; rfl⟩

/-- A smaller bound cuts the FIRST words short. -/
theorem truncate_mem_firstSets {j : Nat} (le : j ≤ k) {fewer firsts : FirstSets} (hfewer : g.firstSets j = .ok fewer)
    (hfirsts : g.firstSets k = .ok firsts) {a : Nonterminal} {w : Lookahead} (hw : w ∈ firsts.get a) :
    w.truncate j ∈ fewer.get a := by
  obtain ⟨p, mem, hhead, hword⟩ := (mem_get_firstSets hfirsts).mp hw
  obtain ⟨v, hv⟩ := exists_ofProduction_of_firstSets hfewer mem
  rw [First.ofProduction_truncate le hv hword] at hv
  exact (mem_get_firstSets hfewer).mpr ⟨p, mem, hhead, hv⟩

/-- Every FIRST word under the smaller bound is one under the larger bound, cut short. -/
theorem exists_mem_firstSets {j : Nat} (le : j ≤ k) {fewer firsts : FirstSets} (hfewer : g.firstSets j = .ok fewer)
    (hfirsts : g.firstSets k = .ok firsts) {a : Nonterminal} {v : Lookahead} (hv : v ∈ fewer.get a) :
    ∃ w ∈ firsts.get a, w.truncate j = v := by
  obtain ⟨p, mem, hhead, hword⟩ := (mem_get_firstSets hfewer).mp hv
  obtain ⟨w, hw⟩ := exists_ofProduction_of_firstSets hfirsts mem
  exact ⟨w, (mem_get_firstSets hfirsts).mpr ⟨p, mem, hhead, hw⟩, (First.ofProduction_truncate le hword hw).symm⟩

end Grammar

end PredictiveParsing
