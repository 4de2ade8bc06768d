import PredictiveParsing.Proofs.Rearrangement

/-! # Tables of rearranged grammars

The analyses of a rearranged grammar find the same sets, so its productions make the same claims, only in another
order. A key has the same owner whatever the order, so all tables are one. But a table can turn into a conflict: of
two epsilon productions that claim a key the second one is refused, unless a production of another kind has taken the
key from the first one by then. -/

namespace PredictiveParsing

open Std

namespace Prediction

variable {g g' : Grammar} {k : Nat} {found found' : Prediction} {p : Production} {w : Lookahead}

/-- The same words and nullable nonterminals have been found for the same bound. -/
structure Agrees (found found' : Prediction) : Prop where
  bound : found.k = found'.k
  nullable : found.nullable = found'.nullable
  firsts : ∀ a, found.firsts.get a = found'.firsts.get a
  follows : ∀ a, found.follows.get a = found'.follows.get a

namespace Agrees

theorem symm (h : found.Agrees found') : found'.Agrees found :=
  ⟨h.bound.symm, h.nullable.symm, fun a => (h.firsts a).symm, fun a => (h.follows a).symm⟩

theorem of_rearranges (hg : g.WellFormed) (hg' : g'.WellFormed) (h : g.Rearranges g')
    (hfound : found.Describes g k) (hfound' : found'.Describes g' k) : found.Agrees found' := by
  refine ⟨hfound.bound.trans hfound'.bound.symm, ?_, h.firsts_eq hg hg' hfound.firsts hfound'.firsts, fun a => ?_⟩
  · rw [hfound.nullable, hfound'.nullable, h.nullable_eq hg hg']
  · rw [hfound.follows, hfound'.follows]
    exact h.get_followSets_eq hg hg' hfound.firsts hfound'.firsts a

variable (h : found.Agrees found')
include h

theorem generates_eq (complete : Bool) (x : List Symbol) (v : List Terminal) :
    found.generates complete x v = found'.generates complete x v := by
  induction x generalizing v with
  | nil =>
      cases v with
      | nil => rw [generates_nil, generates_nil, h.nullable]
      | cons => rw [generates, generates]
  | cons symbol rest ih =>
      cases v with
      | nil => rw [generates_nil, generates_nil, h.nullable]
      | cons t v =>
          cases symbol with
          | terminal => simp only [generates, ih]
          | nonterminal a => simp only [generates, ih, h.nullable, h.firsts]

theorem claimsFirst (hclaim : found.ClaimsFirst p w) : found'.ClaimsFirst p w := by
  obtain ⟨hplain, hnonempty, hmem, hgenerates⟩ := hclaim
  rw [h.firsts] at hmem
  rw [h.bound, h.generates_eq] at hgenerates
  exact ⟨hplain, hnonempty, hmem, hgenerates⟩

theorem claimsFollow (hclaim : found.ClaimsFollow p w) : found'.ClaimsFollow p w := by
  obtain ⟨hvanishes, hmem⟩ := hclaim
  rw [h.firsts, h.nullable] at hvanishes
  rw [h.follows] at hmem
  exact ⟨hvanishes, hmem⟩

theorem claims (hclaim : found.Claims p w) : found'.Claims p w := hclaim.imp h.claimsFirst h.claimsFollow

theorem unambiguous (hrearranges : g.Rearranges g') (hunambiguous : found.Unambiguous g) :
    found'.Unambiguous g' := by
  constructor
  · intro p hp q hq hhead hpkind hqkind w hpw hqw
    exact hunambiguous.one_claimant p (hrearranges.mem_iff.mpr hp) q (hrearranges.mem_iff.mpr hq) hhead hpkind hqkind w
      (h.symm.claims hpw) (h.symm.claims hqw)
  · intro p mem hkind w hfirst hfollow
    exact hunambiguous.one_way p (hrearranges.mem_iff.mpr mem) hkind w (h.symm.claimsFirst hfirst)
      (h.symm.claimsFollow hfollow)

end Agrees

end Prediction

namespace Table

variable {g g' : Grammar} {found found' : Prediction} {table table' : Table} {a : Nonterminal} {w : Lookahead}
  {id : ProductionId}

theorem eq_of_get? (bound : table.k = table'.k) (same : ∀ a w, table.get? a w = table'.get? a w) :
    table = table' := by
  have hentries : table.entries = table'.entries := by
    apply ExtTreeMap.ext_getElem?
    exact fun key => same key.nonterminal key.word
  cases table
  cases table'
  simp_all

namespace OwnedByClaims

/-- The owner of a key is the only one to claim it, but for epsilon productions that leave it to another one. -/
theorem exists_owner (howned : table.OwnedByClaims g found) (hentry : table.get? a w = some id) :
    ∃ p ∈ g.productions, p.id = id ∧ p.head = a ∧ found.Claims p w ∧ ∀ q ∈ g.productions, q.head = a →
      found.Claims q w → q ≠ p → q.isEpsilon = true ∧ p.isEpsilon = false := by
  by_cases hplain : ∃ p ∈ g.productions, p.head = a ∧ p.isEpsilon = false ∧ found.Claims p w
  · obtain ⟨p, mem, rfl, hkind, hclaim⟩ := hplain
    obtain ⟨howner, honly⟩ := howned.plain p mem hkind w hclaim
    rw [hentry] at howner
    refine ⟨p, mem, (Option.some.inj howner).symm, rfl, hclaim, fun q hq hhead hqw hne => ⟨?_, hkind⟩⟩
    by_contra hqkind
    rw [Bool.not_eq_true] at hqkind
    exact hne (honly q hq hhead hqkind hqw)
  · have hunrivalled : ∀ p ∈ g.productions, p.head = a → found.Claims p w → p.isEpsilon = true := by
      intro p mem hhead hclaim
      by_contra hkind
      rw [Bool.not_eq_true] at hkind
      exact hplain ⟨p, mem, hhead, hkind, hclaim⟩
    obtain ⟨p, mem, hid, hhead, _, hclaim, honly⟩ := howned.epsilon a w id hentry hunrivalled
    exact ⟨p, mem, hid, hhead, hclaim, fun q hq hsame hqw hne => absurd (honly q hq hsame hqw) hne⟩

/-- The owner of a key is found again among the same claims of the same productions. -/
theorem get?_of_agrees (howned : table.OwnedByClaims g found) (howned' : table'.OwnedByClaims g' found')
    (h : g.Rearranges g') (agrees : found.Agrees found') (hentry : table.get? a w = some id) :
    table'.get? a w = some id := by
  obtain ⟨p, mem, rfl, rfl, hclaim, honly⟩ := howned.exists_owner hentry
  have hmem := h.mem_iff.mp mem
  obtain ⟨id, hentry'⟩ := (howned'.keys p.head w).mpr ⟨p, hmem, rfl, agrees.claims hclaim⟩
  obtain ⟨q, hq, rfl, hhead, hqclaim, honly'⟩ := howned'.exists_owner hentry'
  by_cases hsame : q = p
  · rw [hentry', hsame]
  · -- Each of the two would be the only one that is not an epsilon production.
    have hp := (honly q (h.mem_iff.mpr hq) hhead (agrees.symm.claims hqclaim) hsame).2
    have hp' := (honly' p hmem rfl (agrees.claims hclaim) (Ne.symm hsame)).1
    rw [hp] at hp'
    cases hp'

/-- A key that two productions claim belongs to one that is not an epsilon production. -/
theorem exists_plain_owner (howned : table.OwnedByClaims g found) {p q : Production} (hp : p ∈ g.productions)
    (hq : q ∈ g.productions) (hphead : p.head = a) (hqhead : q.head = a) (hne : p ≠ q) (hpw : found.Claims p w)
    (hqw : found.Claims q w) :
    ∃ r ∈ g.productions, r.head = a ∧ r.isEpsilon = false ∧ table.get? a w = some r.id := by
  obtain ⟨id, hentry⟩ := (howned.keys a w).mpr ⟨p, hp, hphead, hpw⟩
  obtain ⟨r, mem, rfl, hhead, _, honly⟩ := howned.exists_owner hentry
  refine ⟨r, mem, hhead, ?_, hentry⟩
  by_cases hsame : p = r
  · exact (honly q hq hqhead hqw (hsame ▸ hne.symm)).2
  · exact (honly p hp hphead hpw hsame).2

end OwnedByClaims

end Table

namespace Grammar

variable {g g' : Grammar} {k : Nat} {table : Table}

/-- A rearranged grammar has the same table, or else a conflict between two epsilon productions over a key that the
table gives to a third production. -/
theorem table_of_rearranges (constructed : g.Constructed) (constructed' : g'.Constructed) (h : g.Rearranges g')
    (htable : g.table k = .ok table) :
    g'.table k = .ok table ∨
      ∃ a w, ∃ p ∈ g.alternatives a, ∃ q ∈ g.alternatives a, ∃ r ∈ g.alternatives a,
        p ≠ q ∧ p.isEpsilon = true ∧ q.isEpsilon = true ∧ r.isEpsilon = false ∧
          g'.table k = .error (.conflict a w p.id q.id) ∧ table.get? a w = some r.id := by
  have hg := constructed.wellFormed
  have hg' := constructed'.wellFormed
  obtain ⟨found, hfound, _⟩ := table_eq_ok_iff.mp htable
  obtain ⟨found', hfound'⟩ := h.exists_prediction hg hg' ⟨found, hfound⟩
  have hdescribes' := Prediction.describes_of_prediction hfound'
  have hagrees := Prediction.Agrees.of_rearranges hg hg' h (Prediction.describes_of_prediction hfound) hdescribes'
  have howned := ownedByClaims_of_table hg hfound htable
  cases htable' : g'.table k with
  | ok table' =>
      have howned' := ownedByClaims_of_table hg' hfound' htable'
      have hsame : table' = table := by
        apply Table.eq_of_get?
        · rw [k_of_table htable, k_of_table htable']
        · intro a w
          ext id
          exact ⟨howned'.get?_of_agrees howned h.symm hagrees.symm, howned.get?_of_agrees howned' h hagrees⟩
      rw [hsame]
      exact Or.inl rfl
  | error e =>
      right
      have hunambiguous := hagrees.unambiguous h (unambiguous_of_table hg hfound htable)
      obtain ⟨p, hp, q, hq, hhead, hne, hpkind, hqkind, w, hpw, hqw, rfl⟩ :=
        epsilon_conflict_of_table_error hg' hfound' hunambiguous htable'
      have hpmem := h.mem_iff.mpr hp
      have hqmem := h.mem_iff.mpr hq
      obtain ⟨r, hr, hrhead, hrkind, howner⟩ := howned.exists_plain_owner hpmem hqmem hhead rfl hne
        (hagrees.symm.claims hpw) (hagrees.symm.claims hqw)
      exact ⟨q.head, w, p, hg.mem_alternatives_iff.mpr ⟨hpmem, hhead⟩, q, hg.mem_alternatives_iff.mpr ⟨hqmem, rfl⟩,
        r, hg.mem_alternatives_iff.mpr ⟨hr, hrhead⟩, hne, hpkind, hqkind, hrkind, rfl, howner⟩

/-- The grammar of a terminal behind a nonterminal with given alternatives. -/
def guarded (alternatives : List Production) : Grammar where
  vocabulary := ⟨3, 2⟩
  start := ⟨0⟩
  arena := (⟨⟨0⟩, ⟨0⟩, [.nonterminal ⟨1⟩, .terminal ⟨2⟩]⟩ :: alternatives).toArray
  index := .ofList ((⟨0⟩, 0) :: alternatives.zipIdx.map fun (p, i) => (p.id, i + 1))
  rules := .ofList [((⟨0⟩ : Nonterminal), #[0]), (⟨1⟩, #[1, 2, 3])]

/-- Two epsilon productions behind one another. -/
def adjacent : Grammar :=
  guarded [⟨⟨1⟩, ⟨1⟩, [.terminal .epsilon]⟩, ⟨⟨2⟩, ⟨1⟩, [.terminal .epsilon]⟩, ⟨⟨3⟩, ⟨1⟩, [.terminal ⟨2⟩]⟩]

/-- Two epsilon productions, and between them one that claims the terminal behind the nonterminal. -/
def apart : Grammar :=
  guarded [⟨⟨1⟩, ⟨1⟩, [.terminal .epsilon]⟩, ⟨⟨3⟩, ⟨1⟩, [.terminal ⟨2⟩]⟩, ⟨⟨2⟩, ⟨1⟩, [.terminal .epsilon]⟩]

theorem build_adjacent :
    build ⟨3, 2⟩ ⟨0⟩ [⟨⟨0⟩, [⟨⟨0⟩, [.nonterminal ⟨1⟩, .terminal ⟨2⟩]⟩]⟩,
      ⟨⟨1⟩, [⟨⟨1⟩, []⟩, ⟨⟨2⟩, []⟩, ⟨⟨3⟩, [.terminal ⟨2⟩]⟩]⟩] = .ok adjacent := by cbv

theorem build_apart :
    build ⟨3, 2⟩ ⟨0⟩ [⟨⟨0⟩, [⟨⟨0⟩, [.nonterminal ⟨1⟩, .terminal ⟨2⟩]⟩]⟩,
      ⟨⟨1⟩, [⟨⟨1⟩, []⟩, ⟨⟨3⟩, [.terminal ⟨2⟩]⟩, ⟨⟨2⟩, []⟩]⟩] = .ok apart := by cbv

theorem apart_rearranges_adjacent : apart.Rearranges adjacent := by
  have hg := (constructed_of_build build_apart).wellFormed
  have hg' := (constructed_of_build build_adjacent).wellFormed
  have hheads : ∀ p ∈ apart.productions ++ adjacent.productions, p.head = ⟨0⟩ ∨ p.head = ⟨1⟩ := by decide
  refine ⟨rfl, rfl, by decide, fun a => ?_⟩
  by_cases hfirst : a = ⟨0⟩
  · rw [hfirst]
    decide
  by_cases hsecond : a = ⟨1⟩
  · rw [hsecond]
    decide
  have hnone : ∀ p ∈ apart.productions ++ adjacent.productions, p.head ≠ a := by
    rintro p mem rfl
    exact (hheads p mem).elim hfirst hsecond
  have hempty : apart.alternatives a = [] ∧ adjacent.alternatives a = [] := by
    simp only [List.eq_nil_iff_forall_not_mem, hg.mem_alternatives_iff, hg'.mem_alternatives_iff]
    exact ⟨fun p hp => hnone p (List.mem_append_left _ hp.1) hp.2,
      fun p hp => hnone p (List.mem_append_right _ hp.1) hp.2⟩
  rw [hempty.1, hempty.2]

/-- The table that hides the second epsilon production. -/
def apartTable : Table where
  k := 1
  entries := .ofList [((⟨⟨0⟩, ⟨[⟨2⟩]⟩⟩ : TableKey), (⟨0⟩ : ProductionId)), (⟨⟨1⟩, ⟨[⟨2⟩]⟩⟩, ⟨3⟩)]

theorem table_apart : apart.table 1 = .ok apartTable := by cbv

theorem table_of_adjacent :
    adjacent.table 1 = .ok apartTable ∨
      ∃ a w, ∃ p ∈ apart.alternatives a, ∃ q ∈ apart.alternatives a, ∃ r ∈ apart.alternatives a,
        p ≠ q ∧ p.isEpsilon = true ∧ q.isEpsilon = true ∧ r.isEpsilon = false ∧
          adjacent.table 1 = .error (.conflict a w p.id q.id) ∧ apartTable.get? a w = some r.id :=
  table_of_rearranges (constructed_of_build build_apart) (constructed_of_build build_adjacent)
    apart_rearranges_adjacent table_apart

/-- The order of the epsilon productions decides whether there is a table. -/
theorem apart_has_table_but_adjacent_conflicts :
    apart.Constructed ∧ adjacent.Constructed ∧ apart.check = .ok [] ∧ adjacent.check = .ok [] ∧
      apart.Rearranges adjacent ∧ apart.table 1 = .ok apartTable ∧
      adjacent.table 1 = .error (.conflict ⟨1⟩ ⟨[⟨2⟩]⟩ ⟨1⟩ ⟨2⟩) :=
  ⟨constructed_of_build build_apart, constructed_of_build build_adjacent, by cbv, by cbv, apart_rearranges_adjacent,
    table_apart, by cbv⟩

end Grammar

end PredictiveParsing
