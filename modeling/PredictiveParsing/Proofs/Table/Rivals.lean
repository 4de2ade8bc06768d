import PredictiveParsing.Proofs.Table.Existence
import PredictiveParsing.Proofs.Table.Justification

/-! # Rivals in a conflict

A conflict names the production that has a key and the one that claims it. These are not always two productions: one
that vanishes can claim a word that its head begins with and that follows its head too, and then it meets its own
claim. But whenever there is a conflict, two alternatives of the nonterminal claim the key: what a production claims
in both ways is also the word of another alternative, or follows one whose own word is empty. -/

namespace PredictiveParsing

namespace Prediction

variable {g : Grammar} {k : Nat} {found : Prediction} {p q : Production} {w : Lookahead}

/-- Two alternatives of a nonterminal that claim the same word. -/
structure Rivals (found : Prediction) (g : Grammar) (p q : Production) (w : Lookahead) : Prop where
  left : p ∈ g.productions
  right : q ∈ g.productions
  heads : p.head = q.head
  ne : p ≠ q
  claims_left : found.Claims p w
  claims_right : found.Claims q w

/-- A production that makes a claim in both ways has a rival. -/
theorem exists_rivals_of_both (hg : g.WellFormed) (hfound : found.Describes g k) (mem : p ∈ g.productions)
    (hfirst : found.ClaimsFirst p w) (hfollow : found.ClaimsFollow p w) : ∃ q, found.Rivals g q p w := by
  have hempty : Lookahead.empty ∈ found.firsts.get p.head := by
    rcases hfollow.vanishes with hepsilon | ⟨_, hempty, _⟩
    · rw [hfirst.plain] at hepsilon
      cases hepsilon
    · exact hempty
  obtain ⟨own, hown⟩ := Grammar.exists_ofProduction_of_firstSets hfound.firsts mem
  have hother : ∀ {q v}, First.ofProduction g k q = .ok v → own ≠ v → q ≠ p := by
    rintro q v hword hne rfl
    exact hne (Except.ok.inj (hown.symm.trans hword))
  by_cases hsilent : own = .empty
  · obtain ⟨q, hq, hhead, hword⟩ := (Grammar.mem_get_firstSets hfound.firsts).mp hfirst.mem
    have hne : q ≠ p := hother hword (hsilent.trans_ne hfirst.nonempty.symm)
    exact ⟨q, hq, mem, hhead, hne, claims_of_word hg hfound hq hword hfirst.nonempty, Or.inl hfirst⟩
  · obtain ⟨q, hq, hhead, hword⟩ := (Grammar.mem_get_firstSets hfound.firsts).mp hempty
    have hfollows := hfollow.mem
    rw [← hhead] at hfollows
    exact ⟨q, hq, mem, hhead, hother hword hsilent, claims_of_empty_word hg hfound hq hword hfollows, Or.inl hfirst⟩

/-- An epsilon production claims every word once. -/
theorem isEpsilon_eq_false_of_duplicate (h : List.Duplicate w (found.claims p)) : p.isEpsilon = false := by
  by_contra hepsilon
  rw [claims, if_pos (by simpa using hepsilon)] at h
  exact h.not_nodup (nodup_toList _)

end Prediction

namespace Grammar

variable {g : Grammar} {k : Nat} {found : Prediction} {a : Nonterminal} {w : Lookahead} {existing new : ProductionId}

/-- Behind a conflict there are two alternatives that claim the key. The second production that it names is one of
them; the first one is the other, or the same again if it makes its claim in both ways, for which it has to vanish. -/
theorem exists_rivals_of_table_error (hg : g.WellFormed) (hfound : g.prediction k = .ok found)
    (h : g.table k = .error (.conflict a w existing new)) :
    ∃ p q, found.Rivals g p q w ∧ q.head = a ∧ q.id = new ∧
      (existing = p.id ∨
        (existing = q.id ∧ found.ClaimsFirst q w ∧ found.ClaimsFollow q w ∧ g.Derives q.body [])) := by
  have hdescribes := Prediction.describes_of_prediction hfound
  obtain ⟨p, hp, q, hq, hhead, _, v, hpw, hqw, htwice, heq⟩ := exists_claims_of_table_error hg hfound h
  obtain ⟨rfl, rfl, rfl, rfl⟩ := TableError.conflict.inj heq
  by_cases hne : p = q
  · have hduplicate := htwice hne
    have hplain := Prediction.isEpsilon_eq_false_of_duplicate hduplicate
    obtain ⟨hfirst, hfollow⟩ := (Prediction.duplicate_claims_iff hdescribes hplain).mp hduplicate
    obtain ⟨r, hrivals⟩ := Prediction.exists_rivals_of_both hg hdescribes hq hfirst hfollow
    have hvanishes := hfollow.derives_nil hg hdescribes hq
    exact ⟨r, q, hrivals, rfl, rfl, Or.inr ⟨congrArg Production.id hne, hfirst, hfollow, hvanishes⟩⟩
  · exact ⟨p, q, ⟨hp, hq, hhead, hne, hpw, hqw⟩, rfl, rfl, Or.inl rfl⟩

/-- A conflict comes from two alternatives that claim the key. It names them, unless it names one of them twice: one
that vanishes and makes its claim in both ways. Such a claim leaves no table. -/
theorem exists_rivals_of_conflict (constructed : g.Constructed) (k : Nat) :
    (∀ a w existing new, g.table k = .error (.conflict a w existing new) →
      ∃ found, g.prediction k = .ok found ∧ ∃ p q, found.Rivals g p q w ∧ q.head = a ∧ q.id = new ∧
        (existing = p.id ∨
          (existing = q.id ∧ found.ClaimsFirst q w ∧ found.ClaimsFollow q w ∧ g.Derives q.body []))) ∧
    ∀ found, g.prediction k = .ok found → ∀ p ∈ g.productions, ∀ w,
      found.ClaimsFirst p w → found.ClaimsFollow p w → ∀ table, g.table k ≠ .ok table := by
  have hg := constructed.wellFormed
  constructor
  · intro a w existing new h
    obtain ⟨found, hfound⟩ := exists_prediction_of_table (g := g) (k := k) fun e => by
      rw [h]
      exact fun heq => TableError.noConfusion (Except.error.inj heq)
    exact ⟨found, hfound, exists_rivals_of_table_error hg hfound h⟩
  · intro found hfound p mem w hfirst hfollow table htable
    exact (unambiguous_of_table hg hfound htable).one_way p mem hfirst.plain w hfirst hfollow

/-- The grammar of a terminal that can be left out twice over, in front of the same terminal. -/
def omittable : Grammar where
  vocabulary := ⟨3, 3⟩
  start := ⟨0⟩
  arena := #[⟨⟨0⟩, ⟨0⟩, [.nonterminal ⟨1⟩, .terminal ⟨2⟩]⟩, ⟨⟨1⟩, ⟨1⟩, [.nonterminal ⟨2⟩]⟩,
    ⟨⟨2⟩, ⟨1⟩, [.terminal .epsilon]⟩, ⟨⟨3⟩, ⟨2⟩, [.terminal ⟨2⟩]⟩, ⟨⟨4⟩, ⟨2⟩, [.terminal .epsilon]⟩]
  index := .ofList [((⟨0⟩ : ProductionId), 0), (⟨1⟩, 1), (⟨2⟩, 2), (⟨3⟩, 3), (⟨4⟩, 4)]
  rules := .ofList [((⟨0⟩ : Nonterminal), #[0]), (⟨1⟩, #[1, 2]), (⟨2⟩, #[3, 4])]

theorem build_omittable :
    build ⟨3, 3⟩ ⟨0⟩
      [⟨⟨0⟩, [⟨⟨0⟩, [.nonterminal ⟨1⟩, .terminal ⟨2⟩]⟩]⟩,
        ⟨⟨1⟩, [⟨⟨1⟩, [.nonterminal ⟨2⟩]⟩, ⟨⟨2⟩, []⟩]⟩,
        ⟨⟨2⟩, [⟨⟨3⟩, [.terminal ⟨2⟩]⟩, ⟨⟨4⟩, []⟩]⟩] = .ok omittable := by cbv

theorem exists_rivals_of_omittable :
    ∃ found, omittable.prediction 1 = .ok found ∧ ∃ p q, found.Rivals omittable p q ⟨[⟨2⟩]⟩ ∧ q.id = ⟨1⟩ ∧
      found.ClaimsFirst q ⟨[⟨2⟩]⟩ ∧ found.ClaimsFollow q ⟨[⟨2⟩]⟩ ∧ ∀ table, omittable.table 1 ≠ .ok table := by
  have constructed := constructed_of_build build_omittable
  obtain ⟨hconflict, hno⟩ := exists_rivals_of_conflict constructed 1
  obtain ⟨found, hfound, p, q, hrivals, _, hid, hexisting⟩ := hconflict ⟨1⟩ ⟨[⟨2⟩]⟩ ⟨1⟩ ⟨1⟩ (by cbv)
  rcases hexisting with hexisting | ⟨_, hfirst, hfollow, _⟩
  · refine absurd ?_ hrivals.ne
    exact constructed.wellFormed.eq_of_id_eq hrivals.left hrivals.right (hexisting.symm.trans hid.symm)
  · exact ⟨found, hfound, p, q, hrivals, hid, hfirst, hfollow, hno found hfound q hrivals.right _ hfirst hfollow⟩

/-- The conflict of this grammar names one production twice. -/
theorem conflict_of_omittable_names_one_production :
    omittable.Constructed ∧ (∃ unreachable, omittable.check = .ok unreachable) ∧
      omittable.table 1 = .error (.conflict ⟨1⟩ ⟨[⟨2⟩]⟩ ⟨1⟩ ⟨1⟩) :=
  ⟨constructed_of_build build_omittable, ⟨[], by cbv⟩, by cbv⟩

end Grammar

end PredictiveParsing
