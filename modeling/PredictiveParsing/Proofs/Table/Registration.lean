import Mathlib.Data.List.Permutation
import PredictiveParsing.Proofs.Grammar.Invariant
import PredictiveParsing.Table

/-! # Registration of claims

A table is filled with claims one after the other. A claim is refused if a production of the same kind has the word;
otherwise a production that is not an epsilon production gets it, whatever had it before, and keeps it. So every
entry goes back to a claim, and every claim of a production that is not an epsilon production becomes an entry. -/

namespace PredictiveParsing

open Std

namespace Table

variable {g : Grammar} {p : Production} {table table' : Table} {word : Lookahead}

theorem get?_insert (k : Nat) (entries : ExtTreeMap TableKey ProductionId) (a b : Nonterminal) (v w : Lookahead)
    (id : ProductionId) :
    (Table.mk k (entries.insert ⟨a, v⟩ id)).get? b w =
      if a = b ∧ v = w then some id else (Table.mk k entries).get? b w := by
  simp only [get?, ExtTreeMap.getElem?_insert, LawfulEqOrd.compare_eq_iff_eq, TableKey.mk.injEq]

/-- What a claim that is not refused does: it is entered over nothing or over an epsilon production, or it is a
claim of an epsilon production that leaves another production its word. -/
theorem register_cases (h : register g p table word = .ok table') :
    (table' = { table with entries := table.entries.insert ⟨p.head, word⟩ p.id } ∧
      ∀ existing, table.get? p.head word = some existing → isEpsilonId g existing = true ∧ p.isEpsilon = false) ∨
    (table' = table ∧ p.isEpsilon = true ∧
      ∃ existing, table.get? p.head word = some existing ∧ isEpsilonId g existing = false) := by
  unfold register at h
  split at h
  · rename_i hnone
    cases h
    exact Or.inl ⟨rfl, fun existing hsome => by rw [hnone] at hsome; cases hsome⟩
  · rename_i existing hexisting
    split at h
    · rename_i hepsilon hplain
      cases h
      refine Or.inl ⟨rfl, fun other hother => ?_⟩
      rw [hexisting] at hother
      cases hother
      exact ⟨hepsilon, hplain⟩
    · rename_i hplain hepsilon
      cases h
      exact Or.inr ⟨rfl, hepsilon, existing, hexisting, hplain⟩
    · cases h

/-- A claim is refused because of a production of the same kind that has the word. -/
theorem conflict_of_register_error {e : TableError} (h : register g p table word = .error e) :
    ∃ existing, table.get? p.head word = some existing ∧ isEpsilonId g existing = p.isEpsilon ∧
      e = .conflict p.head word existing p.id := by
  unfold register at h
  split at h
  · cases h
  · rename_i existing hexisting
    refine ⟨existing, hexisting, ?_⟩
    cases hexistingKind : isEpsilonId g existing <;> cases hkind : p.isEpsilon <;>
      simp_all

/-- A word that is not claimed keeps its entry. -/
theorem get?_register_of_ne (h : register g p table word = .ok table') {a : Nonterminal} {w : Lookahead}
    (hne : ¬(p.head = a ∧ word = w)) : table'.get? a w = table.get? a w := by
  rcases register_cases h with ⟨rfl, _⟩ | ⟨rfl, _⟩
  · rw [get?_insert, if_neg hne]
  · rfl

/-- A production that is not an epsilon production gets the word that it claims. -/
theorem get?_register_of_plain (h : register g p table word = .ok table') (plain : p.isEpsilon = false) :
    table'.get? p.head word = some p.id := by
  rcases register_cases h with ⟨rfl, _⟩ | ⟨_, hepsilon, _⟩
  · rw [get?_insert, if_pos ⟨rfl, rfl⟩]
  · rw [plain] at hepsilon
    cases hepsilon

/-- A claim that can be entered over what has the word is entered. -/
theorem register_eq_insert (h : ∀ existing, table.get? p.head word = some existing →
    isEpsilonId g existing = true ∧ p.isEpsilon = false) :
    register g p table word = .ok { table with entries := table.entries.insert ⟨p.head, word⟩ p.id } := by
  unfold register
  split
  · rfl
  · rename_i existing hexisting
    obtain ⟨hexistingKind, hkind⟩ := h existing hexisting
    simp only [hexistingKind, hkind]

/-- A claim of an epsilon production leaves another production its word. -/
theorem register_eq_self {existing : ProductionId} (epsilon : p.isEpsilon = true)
    (h : table.get? p.head word = some existing) (plain : isEpsilonId g existing = false) :
    register g p table word = .ok table := by
  simp only [register, h, plain, epsilon]

/-- Two claims of a production can be registered in either order. -/
theorem register_comm {v w : Lookahead} {next last : Table} (first : register g p table v = .ok next)
    (second : register g p next w = .ok last) :
    ∃ next', register g p table w = .ok next' ∧ register g p next' v = .ok last := by
  by_cases hne : v = w
  · subst hne
    exact ⟨next, first, second⟩
  -- what decides about one word is not changed by the claim of the other one
  have hw : next.get? p.head w = table.get? p.head w := get?_register_of_ne first fun h => hne h.2
  have hv : ∀ {next' : Table}, register g p table w = .ok next' → next'.get? p.head v = table.get? p.head v :=
    fun h => get?_register_of_ne h fun heq => hne heq.2.symm
  rcases register_cases first with ⟨rfl, hfirst⟩ | ⟨rfl, hkind, existing, hexisting, hplain⟩ <;>
    rcases register_cases second with ⟨rfl, hsecond⟩ | ⟨rfl, hkind', existing', hexisting', hplain'⟩
  · -- both are entered
    rw [hw] at hsecond
    have hleft := register_eq_insert hsecond
    refine ⟨_, hleft, (register_eq_insert ?_).trans ?_⟩
    · rwa [hv hleft]
    · rw [Except.ok.injEq, Table.mk.injEq]
      refine ⟨rfl, ExtTreeMap.ext_getElem? fun key => ?_⟩
      simp only [ExtTreeMap.getElem?_insert]
      split <;> split <;> rfl
  · -- the second one leaves its word
    rw [hw] at hexisting'
    have hleft := register_eq_self hkind' hexisting' hplain'
    exact ⟨_, hleft, register_eq_insert hfirst⟩
  · -- the first one leaves its word
    have hleft := register_eq_insert hsecond
    refine ⟨_, hleft, register_eq_self hkind ?_ hplain⟩
    rwa [hv hleft]
  · -- both leave their words
    exact ⟨_, second, first⟩

/-- The claims of a production can be registered in any order. -/
theorem foldlM_register_of_perm {claims claims' : List Lookahead} (perm : claims.Perm claims')
    (h : claims.foldlM (register g p) table = .ok table') : claims'.foldlM (register g p) table = .ok table' := by
  induction perm generalizing table with
  | nil => exact h
  | cons w _ ih =>
      rw [List.foldlM_cons, bind_eq_ok_iff] at h ⊢
      obtain ⟨next, hnext, h⟩ := h
      exact ⟨next, hnext, ih h⟩
  | swap v w rest =>
      simp only [List.foldlM_cons, bind_eq_ok_iff] at h ⊢
      obtain ⟨next, hnext, last, hlast, h⟩ := h
      obtain ⟨next', hnext', hlast'⟩ := register_comm hnext hlast
      exact ⟨next', hnext', last, hlast', h⟩
  | trans _ _ ih ih' => exact ih' (ih h)

/-- The table after claims of several productions. -/
def registerClaims (g : Grammar) (table : Table) (claims : List (Production × Lookahead)) : Except TableError Table :=
  claims.foldlM (fun table (p, word) => register g p table word) table

/-- All claims in the order in which they are registered. -/
def claimList (g : Grammar) (found : Prediction) : List (Production × Lookahead) :=
  g.productions.flatMap fun p => (found.claims p).map (p, ·)

theorem mem_claimList {found : Prediction} : (p, word) ∈ claimList g found ↔ p ∈ g.productions ∧ word ∈ found.claims p := by
  simp only [claimList, List.mem_flatMap, List.mem_map, Prod.mk.injEq]
  constructor
  · rintro ⟨q, hq, w, hw, rfl, rfl⟩
    exact ⟨hq, hw⟩
  · rintro ⟨hp, hword⟩
    exact ⟨p, hp, word, hword, rfl, rfl⟩

theorem registerClaims_map (claims : List Lookahead) :
    registerClaims g table (claims.map (p, ·)) = claims.foldlM (register g p) table := by
  rw [registerClaims, List.foldlM_map]

/-- A table is filled if every production is reached and no claim is refused. -/
theorem fill_eq_ok_iff {found : Prediction} :
    fill g found = .ok table ↔
      (∀ p ∈ g.productions, found.isReached p = true) ∧
        registerClaims g ⟨found.k, ∅⟩ (claimList g found) = .ok table := by
  unfold fill claimList
  generalize Table.mk found.k ∅ = start
  induction g.productions generalizing start with
  | nil => simp [registerClaims]
  | cons p rest ih =>
      rw [List.foldlM_cons, bind_eq_ok_iff, List.flatMap_cons, registerClaims, List.foldlM_append, bind_eq_ok_iff,
        List.forall_mem_cons]
      constructor
      · rintro ⟨next, hnext, h⟩
        unfold registerAll at hnext
        split at hnext
        · rename_i hreached
          obtain ⟨hrest, hclaims⟩ := (ih next).mp h
          exact ⟨⟨hreached, hrest⟩, next, (registerClaims_map _).trans hnext, hclaims⟩
        · cases hnext
      · rintro ⟨⟨hreached, hrest⟩, next, hnext, hclaims⟩
        refine ⟨next, ?_, (ih next).mpr ⟨hrest, hclaims⟩⟩
        rw [registerAll, if_pos hreached]
        exact (registerClaims_map _).symm.trans hnext

/-- The only errors of a table are conflicts, as long as every production is reached. -/
theorem conflict_of_fill_error {found : Prediction} {e : TableError}
    (reached : ∀ p ∈ g.productions, found.isReached p = true) (h : fill g found = .error e) :
    ∃ a w existing new, e = .conflict a w existing new := by
  obtain ⟨p, hp, start, h⟩ := exists_error_of_foldlM h
  rw [registerAll, if_pos (reached p hp)] at h
  obtain ⟨w, _, table, h⟩ := exists_error_of_foldlM h
  obtain ⟨existing, _, _, heq⟩ := conflict_of_register_error h
  exact ⟨p.head, w, existing, p.id, heq⟩

variable {claims : List (Production × Lookahead)}

/-- Every entry of a table was there before or goes back to a claim. -/
theorem exists_claim_of_get? (h : registerClaims g table claims = .ok table') {a : Nonterminal} {w : Lookahead}
    {id : ProductionId} (hentry : table'.get? a w = some id) :
    table.get? a w = some id ∨ ∃ p, (p, w) ∈ claims ∧ p.head = a ∧ p.id = id := by
  refine foldlM_induction (P := fun t => t.get? a w = some id →
    table.get? a w = some id ∨ ∃ p, (p, w) ∈ claims ∧ p.head = a ∧ p.id = id) h Or.inl ?_ hentry
  intro ⟨p, v⟩ hclaim t t' ih hstep hget
  by_cases hkey : p.head = a ∧ v = w
  · obtain ⟨rfl, rfl⟩ := hkey
    rcases register_cases hstep with ⟨rfl, _⟩ | ⟨rfl, _⟩
    · rw [get?_insert, if_pos ⟨rfl, rfl⟩] at hget
      exact Or.inr ⟨p, hclaim, rfl, Option.some.inj hget⟩
    · exact ih hget
  · rw [get?_register_of_ne hstep hkey] at hget
    exact ih hget

theorem isEpsilonId_id (hg : g.WellFormed) (mem : p ∈ g.productions) : isEpsilonId g p.id = p.isEpsilon := by
  rw [isEpsilonId, hg.get?_id mem, Option.any_some]

/-- A production that is not an epsilon production keeps a word once it has it. -/
theorem get?_registerClaims_of_plain (hg : g.WellFormed) (mem : p ∈ g.productions) (plain : p.isEpsilon = false)
    (h : registerClaims g table claims = .ok table') {a : Nonterminal} {w : Lookahead}
    (hentry : table.get? a w = some p.id) : table'.get? a w = some p.id := by
  refine foldlM_induction (P := fun t => t.get? a w = some p.id) h hentry ?_
  intro ⟨q, v⟩ _ t t' hget hstep
  by_cases hkey : q.head = a ∧ v = w
  · obtain ⟨rfl, rfl⟩ := hkey
    rcases register_cases hstep with ⟨_, hreplaced⟩ | ⟨rfl, _⟩
    · have hepsilon := (hreplaced p.id hget).1
      rw [isEpsilonId_id hg mem, plain] at hepsilon
      cases hepsilon
    · exact hget
  · rw [get?_register_of_ne hstep hkey]
    exact hget

/-- A claim is registered behind the claims before it, and the claims behind it are registered after it. -/
theorem exists_register_of_claim (hclaim : (p, word) ∈ claims) (h : registerClaims g table claims = .ok table') :
    ∃ before after middle next, claims = before ++ (p, word) :: after ∧ registerClaims g table before = .ok middle ∧
      register g p middle word = .ok next ∧ registerClaims g next after = .ok table' := by
  obtain ⟨before, after, rfl⟩ := List.append_of_mem hclaim
  rw [registerClaims, List.foldlM_append, bind_eq_ok_iff] at h
  obtain ⟨middle, hmiddle, h⟩ := h
  rw [List.foldlM_cons, bind_eq_ok_iff] at h
  obtain ⟨next, hnext, h⟩ := h
  exact ⟨before, after, middle, next, rfl, hmiddle, hnext, h⟩

/-- Every word that a production claims becomes its entry unless it is an epsilon production. -/
theorem get?_of_claim (hg : g.WellFormed) (mem : p ∈ g.productions) (plain : p.isEpsilon = false)
    (hclaim : (p, word) ∈ claims) (h : registerClaims g table claims = .ok table') :
    table'.get? p.head word = some p.id := by
  obtain ⟨_, _, _, _, _, _, hnext, h⟩ := exists_register_of_claim hclaim h
  exact get?_registerClaims_of_plain hg mem plain h (get?_register_of_plain hnext plain)

theorem k_of_registerClaims (h : registerClaims g table claims = .ok table') : table'.k = table.k := by
  refine foldlM_induction (P := fun t => t.k = table.k) h rfl ?_
  rintro ⟨q, v⟩ _ t t' ih hstep
  rcases register_cases hstep with ⟨rfl, _⟩ | ⟨rfl, _⟩
  · exact ih
  · exact ih

/-- What is looked up is the entry of a beginning of the window that is not empty. -/
theorem exists_get?_of_lookup {a : Nonterminal} {window : Lookahead} {id : ProductionId}
    (h : table.lookup a window = some id) : ∃ n, table.get? a (window.truncate (n + 1)) = some id := by
  unfold lookup at h
  generalize window.length = n at h
  induction n with
  | zero => cases h
  | succ n ih =>
      rw [lookupUpTo, Option.or_eq_some_iff] at h
      rcases h with h | ⟨_, h⟩
      · exact ⟨n, h⟩
      · exact ih h

/-- With one terminal in the window the entry for it is what is looked up. -/
theorem lookup_singleton (table : Table) (a : Nonterminal) (t : Terminal) :
    table.lookup a ⟨[t]⟩ = table.get? a ⟨[t]⟩ := by
  rw [lookup, show (⟨[t]⟩ : Lookahead).length = 0 + 1 from rfl, lookupUpTo, lookupUpTo, Option.or_none]
  rfl

end Table

namespace Grammar

variable {g : Grammar} {k : Nat} {table : Table}

theorem table_eq_ok_iff :
    g.table k = .ok table ↔ ∃ found, g.prediction k = .ok found ∧ Table.fill g found = .ok table := by
  simp only [Grammar.table, bind_eq_ok_iff, mapError_eq_ok_iff]

/-- Analyses are made for a lookahead of at least one terminal. -/
theorem pos_of_admits (h : g.admits k = .ok ()) : 0 < k := by
  unfold admits at h
  split at h
  · cases h
  · omega

theorem exists_of_prediction {found : Prediction} (h : g.prediction k = .ok found) :
    0 < k ∧ ∃ firsts, g.firstSets k = .ok firsts ∧
      found = ⟨k, g.nullable, firsts, g.followSets k firsts g.nullable⟩ := by
  simp only [prediction, bind_eq_ok_iff, pure_eq_ok_iff] at h
  obtain ⟨_, hadmits, firsts, hfirsts, hfound⟩ := h
  exact ⟨pos_of_admits hadmits, firsts, hfirsts, hfound.symm⟩

theorem k_of_table (h : g.table k = .ok table) : table.k = k := by
  obtain ⟨found, hfound, hfill⟩ := table_eq_ok_iff.mp h
  obtain ⟨_, firsts, _, rfl⟩ := exists_of_prediction hfound
  exact Table.k_of_registerClaims (Table.fill_eq_ok_iff.mp hfill).2

theorem pos_of_table (h : g.table k = .ok table) : 0 < k := by
  obtain ⟨found, hfound, _⟩ := table_eq_ok_iff.mp h
  exact (exists_of_prediction hfound).1

/-- The entries of a nonterminal are alternatives of it. -/
theorem exists_of_get?_table (h : g.table k = .ok table) {a : Nonterminal} {w : Lookahead} {id : ProductionId}
    (hentry : table.get? a w = some id) : ∃ p ∈ g.productions, p.head = a ∧ p.id = id := by
  obtain ⟨found, _, hfill⟩ := table_eq_ok_iff.mp h
  rcases Table.exists_claim_of_get? (Table.fill_eq_ok_iff.mp hfill).2 hentry with hempty | ⟨p, hclaim, hhead, hid⟩
  · simp [Table.get?] at hempty
  · exact ⟨p, (Table.mem_claimList.mp hclaim).1, hhead, hid⟩

/-- The table of the nested words with a lookahead of one terminal. -/
def nestedTable : Table where
  k := 1
  entries := .ofList [((⟨⟨0⟩, ⟨[⟨2⟩]⟩⟩ : TableKey), (⟨0⟩ : ProductionId)), (⟨⟨0⟩, ⟨[⟨1⟩]⟩⟩, ⟨1⟩),
    (⟨⟨0⟩, ⟨[⟨3⟩]⟩⟩, ⟨1⟩), (⟨⟨1⟩, ⟨[⟨1⟩]⟩⟩, ⟨2⟩), (⟨⟨1⟩, ⟨[⟨3⟩]⟩⟩, ⟨2⟩)]

theorem table_nested : nested.table 1 = .ok nestedTable := by cbv

end Grammar

end PredictiveParsing
