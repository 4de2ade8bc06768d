import Mathlib.Algebra.BigOperators.Group.List.Basic
import Mathlib.Data.List.Duplicate
import Mathlib.Data.List.Pairwise
import PredictiveParsing.Proofs.Collections
import PredictiveParsing.Proofs.First.Existence
import PredictiveParsing.Proofs.Table.Ownership

/-! # When a table exists

The analyses that a table is built from exist for every bound or for none. With them, and if no nonterminal has two
epsilon productions, an epsilon production never stands in the way of a table: it leaves its words to the others. So
a table exists exactly if no two other alternatives of a nonterminal claim a word, and none claims a word both as one
that it begins with and as one that follows its head. -/

namespace PredictiveParsing

open Std

namespace Grammar

/-- No nonterminal has two epsilon productions. -/
def SingleEpsilon (g : Grammar) : Prop :=
  ∀ p ∈ g.productions, ∀ q ∈ g.productions, p.head = q.head → p.isEpsilon = true → q.isEpsilon = true → p = q

instance (g : Grammar) : Decidable g.SingleEpsilon := by unfold SingleEpsilon; infer_instance

end Grammar

namespace Prediction

variable {g : Grammar} {k : Nat} {found : Prediction} {p : Production} {w : Lookahead}

/-- No two claims that are not made by epsilon productions are to the same key. -/
structure Unambiguous (found : Prediction) (g : Grammar) : Prop where
  one_claimant : ∀ p ∈ g.productions, ∀ q ∈ g.productions, p.head = q.head → p.isEpsilon = false →
    q.isEpsilon = false → ∀ w, found.Claims p w → found.Claims q w → p = q
  one_way : ∀ p ∈ g.productions, p.isEpsilon = false → ∀ w, found.ClaimsFirst p w → ¬found.ClaimsFollow p w

theorem nodup_generated : (found.generated p).Nodup := (nodup_toList _).filter _

/-- Every word that is generated is claimed, except that the empty word makes way for what follows. -/
theorem perm_claims (hfound : found.Describes g k) (plain : p.isEpsilon = false) :
    (found.claims p).Perm ((if .empty ∈ found.generated p then (found.follows.get p.head).toList else []) ++
      (found.generated p).erase .empty) := by
  have hothers : ((found.generated p).erase .empty).flatMap (found.claimsOf p) = (found.generated p).erase .empty := by
    rw [List.flatMap_congr fun v hv => claimsOf_of_ne_empty (nodup_generated.mem_erase_iff.mp hv).1]
    exact List.flatMap_singleton' _
  rw [claims_of_plain plain]
  by_cases hempty : .empty ∈ found.generated p
  · rw [if_pos hempty, ← claimsOf_empty hfound]
    refine ((List.perm_cons_erase hempty).flatMap_right _).trans ?_
    rw [List.flatMap_cons, hothers]
  · rw [List.erase_of_not_mem hempty] at hothers ⊢
    rw [if_neg hempty, List.nil_append, hothers]

/-- A production makes a claim twice exactly if it makes it in both ways. -/
theorem duplicate_claims_iff (hfound : found.Describes g k) (plain : p.isEpsilon = false) :
    List.Duplicate w (found.claims p) ↔ found.ClaimsFirst p w ∧ found.ClaimsFollow p w := by
  have hfirst : 0 < ((found.generated p).erase .empty).count w ↔ found.ClaimsFirst p w := by
    rw [List.count_pos_iff, nodup_generated.mem_erase_iff, mem_generated_iff]
    exact ⟨fun ⟨hne, hmem, hgenerates⟩ => ⟨plain, hne, hmem, hgenerates⟩, fun h => ⟨h.nonempty, h.mem, h.generates⟩⟩
  have hfollow : 0 < (if .empty ∈ found.generated p then (found.follows.get p.head).toList else []).count w ↔
      found.ClaimsFollow p w := by
    rw [List.count_pos_iff, List.mem_ite_nil_right, empty_mem_generated_iff hfound, ExtTreeSet.mem_toList]
    constructor
    · rintro ⟨hvanishes, hmem⟩
      exact ⟨Or.inr ⟨plain, hvanishes⟩, hmem⟩
    · rintro ⟨hvanishes, hmem⟩
      rw [plain] at hvanishes
      exact ⟨(hvanishes.resolve_left Bool.false_ne_true).2, hmem⟩
  have hfirstOnce : ((found.generated p).erase .empty).count w ≤ 1 :=
    List.nodup_iff_count_le_one.mp (nodup_generated.erase .empty) w
  have hfollowOnce : (if .empty ∈ found.generated p then (found.follows.get p.head).toList else []).count w ≤ 1 := by
    apply List.nodup_iff_count_le_one.mp
    split
    · exact nodup_toList _
    · exact List.nodup_nil
  rw [List.duplicate_iff_two_le_count, (perm_claims hfound plain).count_eq, List.count_append, ← hfirst, ← hfollow]
  omega

theorem nodup_claims_iff (hfound : found.Describes g k) (plain : p.isEpsilon = false) :
    (found.claims p).Nodup ↔ ∀ w, found.ClaimsFirst p w → ¬found.ClaimsFollow p w := by
  simp only [List.nodup_iff_forall_not_duplicate, duplicate_claims_iff hfound plain, not_and]

theorem Unambiguous.nodup_claims (h : found.Unambiguous g) (hfound : found.Describes g k) (mem : p ∈ g.productions) :
    (found.claims p).Nodup := by
  cases hkind : p.isEpsilon with
  | true =>
      rw [claims, hkind, if_pos rfl]
      exact nodup_toList _
  | false => exact (nodup_claims_iff hfound hkind).mpr (h.one_way p mem hkind)

end Prediction

namespace Table

variable {g : Grammar} {found : Prediction} {p q : Production} {table table' : Table} {w : Lookahead}
  {claims : List (Production × Lookahead)}

/-- Only epsilon productions claim a word that another production has. -/
theorem isEpsilon_of_claim (hg : g.WellFormed) (mem : p ∈ g.productions) (plain : p.isEpsilon = false)
    (hentry : table.get? q.head w = some p.id) (hclaim : (q, w) ∈ claims)
    (h : registerClaims g table claims = .ok table') : q.isEpsilon = true := by
  obtain ⟨_, _, _, _, _, hmiddle, hnext, _⟩ := exists_register_of_claim hclaim h
  have hkept := get?_registerClaims_of_plain hg mem plain hmiddle hentry
  rcases register_cases hnext with ⟨_, hreplaced⟩ | ⟨_, hepsilon, _⟩
  · have hkind := (hreplaced p.id hkept).1
    rw [isEpsilonId_id hg mem, plain] at hkind
    cases hkind
  · exact hepsilon

/-- No two claims that can be registered are to the same key, unless one of them is made by an epsilon production. -/
theorem pairwise_of_registerClaims (hg : g.WellFormed) (mem : ∀ claim ∈ claims, claim.1 ∈ g.productions)
    (h : registerClaims g table claims = .ok table') :
    claims.Pairwise fun c d => c.1.isEpsilon = false → d.1.isEpsilon = false → c.1.head = d.1.head → c.2 ≠ d.2 := by
  induction claims generalizing table with
  | nil => exact .nil
  | cons claim rest ih =>
      obtain ⟨p, word⟩ := claim
      obtain ⟨hp, hrest⟩ := List.forall_mem_cons.mp mem
      rw [registerClaims, List.foldlM_cons, bind_eq_ok_iff] at h
      obtain ⟨next, hnext, h⟩ := h
      refine List.pairwise_cons.mpr ⟨?_, ih hrest h⟩
      rintro ⟨q, _⟩ hq hpkind hqkind hhead rfl
      have hentry := get?_register_of_plain hnext hpkind
      rw [show p.head = q.head from hhead] at hentry
      have hepsilon := isEpsilon_of_claim hg hp hpkind hentry hq h
      rw [show q.isEpsilon = false from hqkind] at hepsilon
      cases hepsilon

/-- A claim is made as often as its production makes it. -/
theorem count_claimList (hg : g.WellFormed) (mem : p ∈ g.productions) :
    (claimList g found).count (p, w) = (found.claims p).count w := by
  have hothers : ∀ q, q ≠ p → q ∈ g.productions → ((found.claims q).map (q, ·)).count (p, w) = 0 := by
    intro q hne _
    rw [List.count_eq_zero, List.mem_map]
    rintro ⟨v, _, heq⟩
    exact hne (Prod.mk.inj heq).1
  have honce : g.productions.count p = 1 :=
    List.count_eq_one_of_mem (hg.pairwise_id_ne.imp fun hne heq => hne (congrArg Production.id heq)) mem
  rw [claimList, List.count_flatMap]
  refine (List.sum_map_eq_nsmul_single p _ hothers).trans ?_
  rw [honce, one_nsmul]
  exact List.count_map_of_injective _ _ (fun v w heq => (Prod.mk.inj heq).2) w

end Table

namespace Grammar

variable {g : Grammar} {k : Nat} {found : Prediction}

theorem admits_eq_ok_iff (pos : 0 < k) : g.admits k = .ok () ↔ g.Closed := by
  rw [closed_iff_check, admits, if_neg (Nat.ne_of_gt pos)]
  simp only [bind_eq_ok_iff, pure_eq_ok_iff, and_true]

/-- Whether a grammar can be analysed does not depend on the bound. -/
theorem exists_prediction_iff (hg : g.WellFormed) (pos : 0 < k) :
    (∃ found, g.prediction k = .ok found) ↔ g.Closed ∧ ∀ p ∈ g.productions, ¬First.Loops g p := by
  simp only [prediction, bind_eq_ok_iff, pure_eq_ok_iff]
  constructor
  · rintro ⟨_, _, h, firsts, hfirsts, _⟩
    have hclosed := (admits_eq_ok_iff pos).mp h
    exact ⟨hclosed, (exists_firstSets_iff hg hclosed pos).mp ⟨firsts, hfirsts⟩⟩
  · rintro ⟨hclosed, hloops⟩
    obtain ⟨firsts, hfirsts⟩ := (exists_firstSets_iff hg hclosed pos).mpr hloops
    exact ⟨_, (), (admits_eq_ok_iff pos).mpr hclosed, firsts, hfirsts, rfl⟩

theorem unambiguous_of_table (hg : g.WellFormed) (hfound : g.prediction k = .ok found) {table : Table}
    (htable : g.table k = .ok table) : found.Unambiguous g := by
  have hdescribes := Prediction.describes_of_prediction hfound
  constructor
  · intro p hp q hq hhead hpkind hqkind w hpw hqw
    have howner := (ownedByClaims_of_table hg hfound htable).plain q hq hqkind w hqw
    exact howner.2 p hp hhead hpkind hpw
  · intro p mem plain
    rw [← Prediction.nodup_claims_iff hdescribes plain]
    rw [table_eq_registerClaims hg hfound] at htable
    have hpairwise :=
      Table.pairwise_of_registerClaims hg (fun claim h => (Table.mem_claimList.mp h).1) htable
    rw [Table.claimList, List.pairwise_flatMap] at hpairwise
    exact (List.pairwise_map.mp (hpairwise.1 p mem)).imp fun h => h plain plain rfl

/-- What keeps the claims from being registered are two claims of a kind to the same key, also if a single production
makes them. -/
theorem exists_claims_of_table_error (hg : g.WellFormed) (hfound : g.prediction k = .ok found) {e : TableError}
    (h : g.table k = .error e) :
    ∃ p ∈ g.productions, ∃ q ∈ g.productions, p.head = q.head ∧ p.isEpsilon = q.isEpsilon ∧
      ∃ w, found.Claims p w ∧ found.Claims q w ∧ (p = q → List.Duplicate w (found.claims q)) ∧
        e = .conflict q.head w p.id q.id := by
  rw [table_eq_registerClaims hg hfound] at h
  obtain ⟨before, p, q, w, after, hclaims, hp, hhead, hkind, rfl⟩ :=
    Table.exists_rival_of_registerClaims_error hg (fun claim h => (Table.mem_claimList.mp h).1) h
  have hearlier : (p, w) ∈ Table.claimList g found := hclaims ▸ List.mem_append_left _ hp
  have hlater : (q, w) ∈ Table.claimList g found := hclaims ▸ List.mem_append_right before List.mem_cons_self
  obtain ⟨hpmem, hpw⟩ := (mem_claimList_iff hfound).mp hearlier
  obtain ⟨hqmem, hqw⟩ := (mem_claimList_iff hfound).mp hlater
  refine ⟨p, hpmem, q, hqmem, hhead, hkind, w, hpw, hqw, ?_, rfl⟩
  rintro rfl
  rw [List.duplicate_iff_two_le_count, ← Table.count_claimList hg hpmem, hclaims, List.count_append,
    List.count_cons_self]
  have := List.count_pos_iff.mpr hp
  omega

/-- As long as the other claims are unambiguous, a table can only fail for two epsilon productions that claim the same
key. -/
theorem epsilon_conflict_of_table_error (hg : g.WellFormed) (hfound : g.prediction k = .ok found)
    (unambiguous : found.Unambiguous g) {e : TableError} (h : g.table k = .error e) :
    ∃ p ∈ g.productions, ∃ q ∈ g.productions, p.head = q.head ∧ p ≠ q ∧ p.isEpsilon = true ∧ q.isEpsilon = true ∧
      ∃ w, found.Claims p w ∧ found.Claims q w ∧ e = .conflict q.head w p.id q.id := by
  obtain ⟨p, hp, q, hq, hhead, hkind, w, hpw, hqw, htwice, rfl⟩ := exists_claims_of_table_error hg hfound h
  have hnodup := unambiguous.nodup_claims (Prediction.describes_of_prediction hfound) hq
  have hne : p ≠ q := fun heq => (htwice heq).not_nodup hnodup
  cases hpkind : p.isEpsilon with
  | true =>
      rw [hpkind] at hkind
      exact ⟨p, hp, q, hq, hhead, hne, hpkind, hkind.symm, w, hpw, hqw, rfl⟩
  | false =>
      rw [hpkind] at hkind
      exact absurd (unambiguous.one_claimant p hp q hq hhead hpkind hkind.symm w hpw hqw) hne

/-- With at most one epsilon production for each nonterminal, a table exists exactly if no two claims of other
productions are to the same key. -/
theorem exists_table_iff (hg : g.WellFormed) (single : g.SingleEpsilon) (hfound : g.prediction k = .ok found) :
    (∃ table, g.table k = .ok table) ↔ found.Unambiguous g := by
  constructor
  · rintro ⟨table, htable⟩
    exact unambiguous_of_table hg hfound htable
  · intro unambiguous
    cases htable : g.table k with
    | ok table => exact ⟨table, rfl⟩
    | error e =>
        obtain ⟨p, hp, q, hq, hhead, hne, hpkind, hqkind, _⟩ :=
          epsilon_conflict_of_table_error hg hfound unambiguous htable
        exact absurd (single p hp q hq hhead hpkind hqkind) hne

end Grammar

end PredictiveParsing
