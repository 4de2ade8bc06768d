import PredictiveParsing.Proofs.Table.Claims

/-! # Owners of keys

A production claims a key of the table in one of two ways: by a FIRST word of its head that its right-hand side
generates, or, if it can vanish, by a word that follows its head. The keys of a table are exactly the claimed ones. A
key that is claimed by a production other than an epsilon production is claimed by one such production only, and
belongs to it; any other key is claimed by a single epsilon production. A conflict names two claims of a kind. -/

namespace PredictiveParsing

open Std

namespace Prediction

variable {g : Grammar} {k : Nat} {found : Prediction} {p : Production} {w : Lookahead}

/-- A production claims a FIRST word of its head that its right-hand side generates. -/
structure ClaimsFirst (found : Prediction) (p : Production) (w : Lookahead) : Prop where
  plain : p.isEpsilon = false
  nonempty : w ≠ .empty
  mem : w ∈ found.firsts.get p.head
  generates : found.generates (w.isComplete found.k) p.symbols w.terminals = true

/-- An epsilon production, or one whose symbols are all nullable where its head has the empty word, claims a word that
follows its head. -/
structure ClaimsFollow (found : Prediction) (p : Production) (w : Lookahead) : Prop where
  vanishes : p.isEpsilon = true ∨
    (p.isEpsilon = false ∧ Lookahead.empty ∈ found.firsts.get p.head ∧ Nullable.all found.nullable p.symbols = true)
  mem : w ∈ found.follows.get p.head

/-- A production claims the key of its head and a word. -/
def Claims (found : Prediction) (p : Production) (w : Lookahead) : Prop :=
  found.ClaimsFirst p w ∨ found.ClaimsFollow p w

theorem mem_generated_iff :
    w ∈ found.generated p ↔ w ∈ found.firsts.get p.head ∧
      found.generates (w.isComplete found.k) p.symbols w.terminals = true := by
  rw [generated, List.mem_filter, ExtTreeSet.mem_toList]

/-- The empty word is generated if all symbols are nullable. -/
theorem empty_mem_generated_iff (hfound : found.Describes g k) :
    Lookahead.empty ∈ found.generated p ↔ Lookahead.empty ∈ found.firsts.get p.head ∧
      Nullable.all found.nullable p.symbols = true := by
  have hopen : Lookahead.empty.isComplete found.k = false := by
    rw [hfound.bound]
    exact Lookahead.isComplete_empty hfound.pos
  rw [mem_generated_iff, hopen, show Lookahead.empty.terminals = [] from rfl, generates_nil, Bool.false_or]

theorem within_of_mem_follows (hfound : found.Describes g k) {a : Nonterminal} (h : w ∈ found.follows.get a) :
    w.Within k := by
  rw [hfound.follows] at h
  exact Grammar.within_of_mem_followSets hfound.pos hfound.firsts h

/-- What a generated word makes a production claim: the word itself, or what follows if the word is empty. -/
def claimsOf (found : Prediction) (p : Production) (v : Lookahead) : List Lookahead :=
  if v.isEmpty then (found.follows.get p.head).toList.map (v.concat · found.k) else [v]

theorem claims_of_plain (plain : p.isEpsilon = false) :
    found.claims p = (found.generated p).flatMap (found.claimsOf p) := by
  rw [claims, plain, if_neg Bool.false_ne_true]
  rfl

theorem claimsOf_of_ne_empty {v : Lookahead} (h : v ≠ .empty) : found.claimsOf p v = [v] := by
  rw [claimsOf, if_neg (mt Lookahead.isEmpty_iff.mp h)]

theorem claimsOf_empty (hfound : found.Describes g k) :
    found.claimsOf p .empty = (found.follows.get p.head).toList := by
  rw [claimsOf, if_pos (Lookahead.isEmpty_iff.mpr rfl)]
  refine (List.map_congr_left fun w hw => ?_).trans (List.map_id _)
  rw [hfound.bound]
  exact Lookahead.empty_concat hfound.pos (within_of_mem_follows hfound (ExtTreeSet.mem_toList.mp hw))

theorem mem_claims_iff (hfound : found.Describes g k) : w ∈ found.claims p ↔ found.Claims p w := by
  cases hkind : p.isEpsilon with
  | true =>
      rw [claims, hkind, if_pos rfl, ExtTreeSet.mem_toList]
      constructor
      · intro hw
        exact Or.inr ⟨Or.inl hkind, hw⟩
      · rintro (⟨hplain, _⟩ | ⟨_, hw⟩)
        · rw [hkind] at hplain
          cases hplain
        · exact hw
  | false =>
      rw [claims_of_plain hkind, List.mem_flatMap]
      constructor
      · rintro ⟨v, hv, hw⟩
        by_cases hempty : v = .empty
        · subst hempty
          rw [claimsOf_empty hfound, ExtTreeSet.mem_toList] at hw
          exact Or.inr ⟨Or.inr ⟨hkind, (empty_mem_generated_iff hfound).mp hv⟩, hw⟩
        · rw [claimsOf_of_ne_empty hempty, List.mem_singleton] at hw
          subst hw
          obtain ⟨hmem, hgenerates⟩ := mem_generated_iff.mp hv
          exact Or.inl ⟨hkind, hempty, hmem, hgenerates⟩
      · rintro (⟨_, hne, hmem, hgenerates⟩ | ⟨hvanishes, hw⟩)
        · refine ⟨w, mem_generated_iff.mpr ⟨hmem, hgenerates⟩, ?_⟩
          rw [claimsOf_of_ne_empty hne]
          exact List.mem_singleton_self w
        · rw [hkind] at hvanishes
          have hempty := hvanishes.resolve_left Bool.false_ne_true
          refine ⟨.empty, (empty_mem_generated_iff hfound).mpr hempty.2, ?_⟩
          rw [claimsOf_empty hfound, ExtTreeSet.mem_toList]
          exact hw

/-- A production claims its own word. -/
theorem claims_of_word (hg : g.WellFormed) (hfound : found.Describes g k) (mem : p ∈ g.productions)
    (hword : First.ofProduction g k p = .ok w) (hne : w ≠ .empty) : found.Claims p w := by
  have hplain : p.isEpsilon = false := by
    by_contra hepsilon
    rw [First.ofProduction, if_pos (by simpa using hepsilon)] at hword
    exact hne (Except.ok.inj hword).symm
  exact (mem_claims_iff hfound).mp (mem_claims_of_ne_empty hg hfound mem hplain hword hne)

/-- A production whose own word is empty claims whatever follows its head. -/
theorem claims_of_empty_word (hg : g.WellFormed) (hfound : found.Describes g k) (mem : p ∈ g.productions)
    (hword : First.ofProduction g k p = .ok .empty) (hfollow : w ∈ found.follows.get p.head) : found.Claims p w := by
  cases hkind : p.isEpsilon with
  | true => exact Or.inr ⟨Or.inl hkind, hfollow⟩
  | false => exact (mem_claims_iff hfound).mp (mem_claims_of_follow hg hfound mem hkind hword hfollow)

end Prediction

namespace Table

variable {g : Grammar} {found : Prediction} {p q : Production} {table table' : Table} {word : Lookahead}
  {claims : List (Production × Lookahead)} {a : Nonterminal} {w : Lookahead} {id : ProductionId}

/-- A key that has an entry does not lose it. -/
theorem exists_get?_register (h : register g p table word = .ok table') (hentry : ∃ id, table.get? a w = some id) :
    ∃ id, table'.get? a w = some id := by
  rcases register_cases h with ⟨rfl, _⟩ | ⟨rfl, _⟩
  · rw [get?_insert]
    split
    · exact ⟨p.id, rfl⟩
    · exact hentry
  · exact hentry

/-- Every claim leaves an entry for its key. -/
theorem exists_get?_of_claim (hclaim : (p, word) ∈ claims) (h : registerClaims g table claims = .ok table') :
    ∃ id, table'.get? p.head word = some id := by
  obtain ⟨_, _, _, next, _, _, hnext, h⟩ := exists_register_of_claim hclaim h
  have hentry : ∃ id, next.get? p.head word = some id := by
    rcases register_cases hnext with ⟨rfl, _⟩ | ⟨rfl, _, existing, hexisting, _⟩
    · exact ⟨p.id, by rw [get?_insert, if_pos ⟨rfl, rfl⟩]⟩
    · exact ⟨existing, hexisting⟩
  exact foldlM_induction (P := fun t => ∃ id, t.get? p.head word = some id) h hentry
    fun _ _ t t' ih hstep => exists_get?_register hstep ih

/-- A word that no production but epsilon productions claims stays with the production that has it. -/
theorem get?_registerClaims_of_unrivalled (unrivalled : ∀ q, (q, w) ∈ claims → q.head = a → q.isEpsilon = true)
    (h : registerClaims g table claims = .ok table') (hentry : table.get? a w = some id) :
    table'.get? a w = some id := by
  refine foldlM_induction (P := fun t => t.get? a w = some id) h hentry ?_
  intro ⟨q, v⟩ hclaim t t' hget hstep
  by_cases hkey : q.head = a ∧ v = w
  · obtain ⟨rfl, rfl⟩ := hkey
    rcases register_cases hstep with ⟨_, hreplaced⟩ | ⟨rfl, _⟩
    · have hplain := (hreplaced id hget).2
      rw [unrivalled q hclaim rfl] at hplain
      cases hplain
    · exact hget
  · rw [get?_register_of_ne hstep hkey]
    exact hget

/-- A word that no production but epsilon productions claims belongs to each of them. -/
theorem get?_of_unrivalled_claim (hg : g.WellFormed) {k : Nat} (mem : ∀ claim ∈ claims, claim.1 ∈ g.productions)
    (unrivalled : ∀ q, (q, word) ∈ claims → q.head = p.head → q.isEpsilon = true) (hclaim : (p, word) ∈ claims)
    (h : registerClaims g ⟨k, ∅⟩ claims = .ok table') : table'.get? p.head word = some p.id := by
  obtain ⟨before, after, middle, next, rfl, hmiddle, hnext, h⟩ := exists_register_of_claim hclaim h
  refine get?_registerClaims_of_unrivalled (fun q hq => unrivalled q ?_) h ?_
  · exact List.mem_append_right before (List.mem_cons_of_mem _ hq)
  rcases register_cases hnext with ⟨rfl, _⟩ | ⟨rfl, _, existing, hexisting, hplain⟩
  · rw [get?_insert, if_pos ⟨rfl, rfl⟩]
  · -- Only a production that is not an epsilon production is left its word, but none has claimed this one.
    rcases exists_claim_of_get? hmiddle hexisting with hempty | ⟨q, hq, hhead, rfl⟩
    · simp [get?] at hempty
    · have hq' := List.mem_append_left ((p, word) :: after) hq
      rw [isEpsilonId_id hg (mem (q, word) hq'), unrivalled q hq' hhead] at hplain
      cases hplain

/-- As long as every production is reached, filling a table is registering all claims. -/
theorem fill_eq_of_isReached (reached : ∀ p ∈ g.productions, found.isReached p = true) :
    fill g found = registerClaims g ⟨found.k, ∅⟩ (claimList g found) := by
  unfold fill registerClaims claimList
  generalize Table.mk found.k ∅ = start
  generalize g.productions = ps at reached ⊢
  induction ps generalizing start with
  | nil => rfl
  | cons p rest ih =>
      obtain ⟨hp, hrest⟩ := List.forall_mem_cons.mp reached
      rw [List.foldlM_cons, List.flatMap_cons, List.foldlM_append, registerAll, if_pos hp, List.foldlM_map]
      exact congrArg _ (funext fun next => ih next hrest)

/-- A claim is refused because of an earlier claim of its kind to the same key. -/
theorem exists_rival_of_registerClaims_error (hg : g.WellFormed) {k : Nat} {e : TableError}
    (mem : ∀ claim ∈ claims, claim.1 ∈ g.productions) (h : registerClaims g ⟨k, ∅⟩ claims = .error e) :
    ∃ before p q word after, claims = before ++ (q, word) :: after ∧ (p, word) ∈ before ∧ p.head = q.head ∧
      p.isEpsilon = q.isEpsilon ∧ e = .conflict q.head word p.id q.id := by
  obtain ⟨before, ⟨q, word⟩, after, middle, rfl, hmiddle, herror⟩ := exists_step_of_foldlM_error h
  obtain ⟨existing, hexisting, hkind, rfl⟩ := conflict_of_register_error herror
  rcases exists_claim_of_get? hmiddle hexisting with hempty | ⟨p, hp, hhead, rfl⟩
  · simp [get?] at hempty
  · rw [isEpsilonId_id hg (mem (p, word) (List.mem_append_left _ hp))] at hkind
    exact ⟨before, p, q, word, after, rfl, hp, hhead, hkind, rfl⟩

/-- The keys of a table and the productions that they belong to, in terms of the claims. -/
structure OwnedByClaims (g : Grammar) (found : Prediction) (table : Table) : Prop where
  keys : ∀ a w, (∃ id, table.get? a w = some id) ↔ ∃ p ∈ g.productions, p.head = a ∧ found.Claims p w
  plain : ∀ p ∈ g.productions, p.isEpsilon = false → ∀ w, found.Claims p w →
    table.get? p.head w = some p.id ∧
      ∀ q ∈ g.productions, q.head = p.head → q.isEpsilon = false → found.Claims q w → q = p
  epsilon : ∀ a w id, table.get? a w = some id →
    (∀ p ∈ g.productions, p.head = a → found.Claims p w → p.isEpsilon = true) →
    ∃ p ∈ g.productions, p.id = id ∧ p.head = a ∧ p.isEpsilon = true ∧ found.Claims p w ∧
      ∀ q ∈ g.productions, q.head = a → found.Claims q w → q = p
  alternatives : ∀ a w id, table.get? a w = some id → ∃ p ∈ g.productions, p.id = id ∧ p.head = a

end Table

namespace Grammar

variable {g : Grammar} {k : Nat} {found : Prediction} {table : Table}

/-- A table is what registering the claims of all productions makes of nothing. -/
theorem table_eq_registerClaims (hg : g.WellFormed) (hfound : g.prediction k = .ok found) :
    g.table k = Table.registerClaims g ⟨k, ∅⟩ (Table.claimList g found) := by
  have hdescribes := Prediction.describes_of_prediction hfound
  rw [table, hfound, ← hdescribes.bound]
  exact Table.fill_eq_of_isReached fun p mem => Prediction.isReached_of_mem hg hdescribes mem

/-- A table that exists, or a conflict in its place, comes out of analyses that have succeeded. -/
theorem exists_prediction_of_table (h : ∀ e, g.table k ≠ .error (.grammar e)) : ∃ found, g.prediction k = .ok found := by
  cases hfound : g.prediction k with
  | ok found => exact ⟨found, rfl⟩
  | error e =>
      refine absurd ?_ (h e)
      rw [table, hfound]
      rfl

section

variable (hg : g.WellFormed) (hfound : g.prediction k = .ok found)
include hfound

theorem mem_claimList_iff {p : Production} {w : Lookahead} :
    (p, w) ∈ Table.claimList g found ↔ p ∈ g.productions ∧ found.Claims p w := by
  rw [Table.mem_claimList, Prediction.mem_claims_iff (Prediction.describes_of_prediction hfound)]

include hg

variable (htable : g.table k = .ok table) {a : Nonterminal} {w : Lookahead} {id : ProductionId} {p : Production}
include htable

/-- Every entry goes back to a claim. -/
theorem exists_claim_of_get?_table (hentry : table.get? a w = some id) :
    ∃ p ∈ g.productions, p.id = id ∧ p.head = a ∧ found.Claims p w := by
  rw [table_eq_registerClaims hg hfound] at htable
  rcases Table.exists_claim_of_get? htable hentry with hempty | ⟨p, hp, hhead, hid⟩
  · simp [Table.get?] at hempty
  · obtain ⟨mem, hclaim⟩ := (mem_claimList_iff hfound).mp hp
    exact ⟨p, mem, hid, hhead, hclaim⟩

theorem exists_get?_table_of_claim (mem : p ∈ g.productions) (hclaim : found.Claims p w) :
    ∃ id, table.get? p.head w = some id := by
  rw [table_eq_registerClaims hg hfound] at htable
  exact Table.exists_get?_of_claim ((mem_claimList_iff hfound).mpr ⟨mem, hclaim⟩) htable

/-- A production that is not an epsilon production gets what it claims. -/
theorem get?_table_of_plain_claim (mem : p ∈ g.productions) (plain : p.isEpsilon = false) (hclaim : found.Claims p w) :
    table.get? p.head w = some p.id := by
  rw [table_eq_registerClaims hg hfound] at htable
  exact Table.get?_of_claim hg mem plain ((mem_claimList_iff hfound).mpr ⟨mem, hclaim⟩) htable

/-- An epsilon production gets what only epsilon productions claim. -/
theorem get?_table_of_unrivalled_claim (mem : p ∈ g.productions) (hclaim : found.Claims p w)
    (unrivalled : ∀ q ∈ g.productions, q.head = p.head → found.Claims q w → q.isEpsilon = true) :
    table.get? p.head w = some p.id := by
  rw [table_eq_registerClaims hg hfound] at htable
  refine Table.get?_of_unrivalled_claim hg (fun claim h => (Table.mem_claimList.mp h).1) ?_
    ((mem_claimList_iff hfound).mpr ⟨mem, hclaim⟩) htable
  intro q hq hhead
  obtain ⟨hq, hrival⟩ := (mem_claimList_iff hfound).mp hq
  exact unrivalled q hq hhead hrival

theorem ownedByClaims_of_table : table.OwnedByClaims g found := by
  have hback : ∀ {a : Nonterminal} {w : Lookahead} {id : ProductionId}, table.get? a w = some id → _ :=
    exists_claim_of_get?_table hg hfound htable
  refine ⟨fun a w => ⟨?_, ?_⟩, fun p mem plain w hclaim => ⟨?_, fun q hq hhead hkind hrival => ?_⟩, ?_, ?_⟩
  · rintro ⟨id, hentry⟩
    obtain ⟨p, mem, _, hhead, hclaim⟩ := hback hentry
    exact ⟨p, mem, hhead, hclaim⟩
  · rintro ⟨p, mem, rfl, hclaim⟩
    exact exists_get?_table_of_claim hg hfound htable mem hclaim
  · exact get?_table_of_plain_claim hg hfound htable mem plain hclaim
  · have hentry := get?_table_of_plain_claim hg hfound htable hq hkind hrival
    rw [hhead, get?_table_of_plain_claim hg hfound htable mem plain hclaim] at hentry
    exact hg.eq_of_id_eq hq mem (Option.some.inj hentry).symm
  · intro a w id hentry unrivalled
    obtain ⟨p, mem, hid, rfl, hclaim⟩ := hback hentry
    refine ⟨p, mem, hid, rfl, unrivalled p mem rfl hclaim, hclaim, fun q hq hhead hrival => ?_⟩
    have howner := get?_table_of_unrivalled_claim hg hfound htable hq hrival
      fun r hr hsame => unrivalled r hr (hsame.trans hhead)
    rw [hhead, hentry, ← hid] at howner
    exact hg.eq_of_id_eq hq mem (Option.some.inj howner).symm
  · intro a w id hentry
    obtain ⟨p, mem, hid, hhead, _⟩ := hback hentry
    exact ⟨p, mem, hid, hhead⟩

end

/-- The keys of a table are the claimed ones, each with a single owner; a conflict is between two claims of a kind. -/
theorem every_key_has_one_owner (constructed : g.Constructed) (k : Nat) :
    (∀ table, g.table k = .ok table → ∃ found, g.prediction k = .ok found ∧ table.OwnedByClaims g found) ∧
    ∀ a w existing new, g.table k = .error (.conflict a w existing new) →
      ∃ found, g.prediction k = .ok found ∧ ∃ p ∈ g.productions, ∃ q ∈ g.productions, p.id = existing ∧ q.id = new ∧
        p.head = a ∧ q.head = a ∧ found.Claims p w ∧ found.Claims q w ∧ p.isEpsilon = q.isEpsilon := by
  have hg := constructed.wellFormed
  constructor
  · intro table htable
    obtain ⟨found, hfound⟩ := exists_prediction_of_table (g := g) (k := k) fun e => by
      rw [htable]
      intro h
      cases h
    exact ⟨found, hfound, ownedByClaims_of_table hg hfound htable⟩
  · intro a w existing new hconflict
    obtain ⟨found, hfound⟩ := exists_prediction_of_table (g := g) (k := k) fun e => by
      rw [hconflict]
      intro h
      cases h
    rw [table_eq_registerClaims hg hfound] at hconflict
    obtain ⟨before, p, q, word, after, hclaims, hp, hhead, hkind, herror⟩ :=
      Table.exists_rival_of_registerClaims_error hg (fun claim h => (Table.mem_claimList.mp h).1) hconflict
    cases herror
    have hearlier : (p, w) ∈ Table.claimList g found := hclaims ▸ List.mem_append_left _ hp
    have hlater : (q, w) ∈ Table.claimList g found := hclaims ▸ List.mem_append_right before List.mem_cons_self
    obtain ⟨hp, hpw⟩ := (mem_claimList_iff hfound).mp hearlier
    obtain ⟨hq, hqw⟩ := (mem_claimList_iff hfound).mp hlater
    exact ⟨found, hfound, p, hp, q, hq, rfl, rfl, hhead, rfl, hpw, hqw, hkind⟩

theorem every_key_of_nested_has_one_owner :
    ∃ found, nested.prediction 1 = .ok found ∧ nestedTable.OwnedByClaims nested found :=
  (every_key_has_one_owner constructed_nested 1).1 nestedTable table_nested

end Grammar

end PredictiveParsing
