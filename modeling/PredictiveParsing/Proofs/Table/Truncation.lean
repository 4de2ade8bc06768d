import PredictiveParsing.Proofs.Follow.Truncation
import PredictiveParsing.Proofs.Table.Existence

/-! # Tables under a larger bound

What a production claims under a bound it claims, cut short, under every smaller bound. So two claims to one key are
two claims to one key under the smaller bound as well, and whatever makes a table fail under a bound makes it fail
under every smaller one: more lookahead never breaks a grammar. -/

namespace PredictiveParsing

open Std

namespace Prediction

variable {g : Grammar} {j k n : Nat} {fewer found : Prediction} {a : Nonterminal} {rest x : List Symbol}
  {v : List Terminal} {p : Production} {w : Lookahead} {complete : Bool}

section

variable (cut : ∀ a, ∀ w ∈ found.firsts.get a, w.truncate j ∈ fewer.firsts.get a) (le : n ≤ j)
  (hw : w ∈ found.firsts.get a)
include cut le hw

/-- What a word of a nonterminal begins with, one that is cut short begins with too, as far as it has not been cut. -/
theorem generates_take_of_prefix (hne : v.take n ≠ []) (hle : v.take n <+: w.terminals) :
    fewer.generates true (.nonterminal a :: rest) (v.take n) = true := by
  have hlength : (v.take n).length ≤ n := List.length_take_le n v
  exact generates_of_prefix (cut a w hw) hne (List.prefix_take_iff.mpr ⟨hle, Nat.le_trans hlength le⟩)

theorem generates_take_append (hnonempty : w ≠ .empty) (hlength : w.length ≤ n)
    (hrest : fewer.generates complete rest (v.take (n - w.length)) = true) :
    fewer.generates complete (.nonterminal a :: rest) ((w.terminals ++ v).take n) = true := by
  have hmem := cut a w hw
  rw [Lookahead.truncate_of_length_le (Nat.le_trans hlength le)] at hmem
  rw [List.take_append, List.take_of_length_le hlength]
  exact generates_nonterminal hmem (fun hnil => hnonempty (congrArg Lookahead.mk hnil)) rfl hrest

end

section

variable {complete' : Bool} (same : fewer.nullable = found.nullable)
include same

theorem generates_take_nil (exact : complete' = false → complete = false ∧ v.length ≤ n)
    (h : found.generates complete x v = true) (hnil : v.take n = []) :
    fewer.generates complete' x (v.take n) = true := by
  rw [hnil, generates_nil, same]
  cases complete' with
  | true => rfl
  | false =>
      obtain ⟨rfl, hlength⟩ := exact rfl
      rw [List.take_of_length_le hlength] at hnil
      rwa [hnil, generates_nil] at h

/-- A word that a nonterminal takes part in is cut short in the part of the nonterminal or behind it. -/
theorem generates_take_nonterminal (cut : ∀ a, ∀ w ∈ found.firsts.get a, w.truncate j ∈ fewer.firsts.get a)
    (le : n ≤ j) (exact : complete' = false → complete = false ∧ v.length ≤ n)
    (later : ∀ {v n}, n ≤ j → (complete' = false → complete = false ∧ v.length ≤ n) →
      found.generates complete rest v = true → fewer.generates complete' rest (v.take n) = true)
    (hnil : v.take n ≠ []) (h : found.generates complete (.nonterminal a :: rest) v = true) :
    fewer.generates complete' (.nonterminal a :: rest) (v.take n) = true := by
  have hne : v ≠ [] := fun hv => hnil (by rw [hv, List.take_nil])
  rcases generates_nonterminal_cases hne h with
    ⟨hnullable, hrest⟩ | ⟨w, hw, hnonempty, ⟨behind, _, rfl, hrest⟩ | ⟨hle, hend⟩⟩
  · obtain ⟨s, u, hu⟩ := List.exists_cons_of_ne_nil hnil
    have hlater := later le exact hrest
    rw [hu] at hlater ⊢
    rw [generates, same, hnullable, Bool.true_and, Bool.or_eq_true]
    exact Or.inl hlater
  · rw [List.length_append, ← Lookahead.length] at exact
    by_cases hlength : w.length ≤ n
    · refine generates_take_append cut le hw hnonempty hlength (later (by omega) (fun hexact => ?_) hrest)
      obtain ⟨hopen, hshort⟩ := exact hexact
      exact ⟨hopen, by omega⟩
    · -- The cut goes through the word of the nonterminal, so the rest need not be generated.
      have hcomplete : complete' = true := by
        by_contra hopen
        have hshort := (exact (Bool.eq_false_iff.mpr hopen)).2
        omega
      rw [hcomplete]
      refine generates_take_of_prefix cut le hw hnil ?_
      rw [List.take_append_of_le_length (Nat.le_of_not_le hlength)]
      exact List.take_prefix n _
  · cases hkind : complete' with
    | true => exact generates_take_of_prefix cut le hw hnil ((List.take_prefix n v).trans hle)
    | false =>
        obtain ⟨rfl, hlength⟩ := exact hkind
        obtain ⟨rfl, hall⟩ := hend.resolve_left Bool.false_ne_true
        rw [← List.append_nil w.terminals]
        refine generates_take_append cut le hw hnonempty hlength ?_
        rw [List.take_nil, generates_nil, same]
        exact hall

/-- What generates a word generates it cut short; it generates it exactly if nothing has been cut off. -/
theorem generates_take (cut : ∀ a, ∀ w ∈ found.firsts.get a, w.truncate j ∈ fewer.firsts.get a) (le : n ≤ j)
    (exact : complete' = false → complete = false ∧ v.length ≤ n) (h : found.generates complete x v = true) :
    fewer.generates complete' x (v.take n) = true := by
  induction x generalizing v n with
  | nil =>
      cases v with
      | nil => exact generates_take_nil same exact h List.take_nil
      | cons => rw [generates] at h; cases h
  | cons symbol rest ih =>
      by_cases hnil : v.take n = []
      · exact generates_take_nil same exact h hnil
      cases symbol with
      | terminal t =>
          obtain ⟨s, v, rfl⟩ := List.exists_cons_of_ne_nil fun hv : v = [] => hnil (by rw [hv, List.take_nil])
          obtain ⟨m, rfl⟩ : ∃ m, n = m + 1 := Nat.exists_eq_succ_of_ne_zero fun hzero => hnil (by rw [hzero]; rfl)
          rw [generates] at h
          rw [List.take_succ_cons, generates]
          split at h
          · rename_i hepsilon
            rw [if_pos hepsilon]
            exact ih le exact h
          · rename_i hplain
            rw [Bool.and_eq_true] at h
            rw [if_neg hplain, h.1, Bool.true_and]
            refine ih (by omega) (fun hexact => ?_) h.2
            obtain ⟨hopen, hlength⟩ := exact hexact
            rw [List.length_cons] at hlength
            exact ⟨hopen, by omega⟩
      | nonterminal a => exact generates_take_nonterminal same cut le exact ih hnil h

end

section

variable (hg : g.WellFormed) (closed : g.Closed) (le : j ≤ k) (hfewer : fewer.Describes g j) (hfound : found.Describes g k)
include le hfewer hfound

theorem truncate_mem_firsts (hw : w ∈ found.firsts.get a) : w.truncate j ∈ fewer.firsts.get a :=
  Grammar.truncate_mem_firstSets le hfewer.firsts hfound.firsts hw

theorem ClaimsFirst.truncate (h : found.ClaimsFirst p w) : fewer.ClaimsFirst p (w.truncate j) := by
  obtain ⟨plain, hnonempty, hmem, hgenerates⟩ := h
  refine ⟨plain, fun hempty => hnonempty ?_, truncate_mem_firsts le hfewer hfound hmem, ?_⟩
  · have hlength : min j w.length = 0 := by rw [← Lookahead.length_truncate, hempty]; rfl
    have hpos := hfewer.pos
    exact congrArg Lookahead.mk (List.length_eq_zero_iff.mp (show w.length = 0 by omega))
  · rw [hfound.bound] at hgenerates
    rw [hfewer.bound]
    refine generates_take (hfewer.nullable.trans hfound.nullable.symm)
      (fun a w hw => truncate_mem_firsts le hfewer hfound hw) (Nat.le_refl j) (fun hopen => ?_) hgenerates
    -- A word that is open under the smaller bound has not been cut.
    obtain ⟨hlength, hunended⟩ := Lookahead.isComplete_eq_false_iff.mp hopen
    rw [Lookahead.length_truncate] at hlength
    have hshort : w.length < j := by omega
    rw [Lookahead.truncate_of_length_le (Nat.le_of_lt hshort)] at hunended
    exact ⟨Lookahead.isComplete_eq_false_iff.mpr ⟨by omega, hunended⟩, Nat.le_of_lt hshort⟩

include hg closed

theorem ClaimsFollow.truncate (h : found.ClaimsFollow p w) : fewer.ClaimsFollow p (w.truncate j) := by
  obtain ⟨hvanishes, hmem⟩ := h
  constructor
  · rw [hfewer.nullable, ← hfound.nullable]
    refine hvanishes.imp_right fun ⟨plain, hempty, hall⟩ => ⟨plain, ?_, hall⟩
    have hcut := truncate_mem_firsts le hfewer hfound hempty
    rwa [Lookahead.truncate_of_length_le (Nat.zero_le j)] at hcut
  · rw [hfound.follows] at hmem
    rw [hfewer.follows]
    exact Grammar.truncate_mem_followSets hg closed hfewer.pos le hfewer.firsts hfound.firsts hmem

/-- Under a larger bound there are no more claims to a key than under a smaller one. -/
theorem Unambiguous.of_le (h : fewer.Unambiguous g) : found.Unambiguous g := by
  have htruncate : ∀ {p : Production} {w : Lookahead}, found.Claims p w → fewer.Claims p (w.truncate j) :=
    Or.imp (ClaimsFirst.truncate le hfewer hfound) (ClaimsFollow.truncate hg closed le hfewer hfound)
  constructor
  · intro p hp q hq hhead hpkind hqkind w hpw hqw
    exact h.one_claimant p hp q hq hhead hpkind hqkind (w.truncate j) (htruncate hpw) (htruncate hqw)
  · intro p mem plain w hfirst hfollow
    exact h.one_way p mem plain (w.truncate j) (hfirst.truncate le hfewer hfound)
      (hfollow.truncate hg closed le hfewer hfound)

end

end Prediction

namespace Grammar

variable {g : Grammar} {j k : Nat}

/-- More lookahead never breaks a grammar in which no nonterminal has two epsilon productions. -/
theorem exists_table_of_le (constructed : g.Constructed) (single : g.SingleEpsilon) (le : j ≤ k)
    (h : ∃ table, g.table j = .ok table) : ∃ table, g.table k = .ok table := by
  have hg := constructed.wellFormed
  obtain ⟨table, htable⟩ := h
  have hpos := pos_of_table htable
  obtain ⟨fewer, hfewer, _⟩ := table_eq_ok_iff.mp htable
  have hanalysed := (exists_prediction_iff hg hpos).mp ⟨fewer, hfewer⟩
  obtain ⟨found, hfound⟩ := (exists_prediction_iff hg (Nat.lt_of_lt_of_le hpos le)).mpr hanalysed
  have hunambiguous := unambiguous_of_table hg hfewer htable
  exact (exists_table_iff hg single hfound).mpr (hunambiguous.of_le hg hanalysed.1 le
    (Prediction.describes_of_prediction hfewer) (Prediction.describes_of_prediction hfound))

theorem exists_table_nested_of_le : ∃ table, nested.table 3 = .ok table :=
  exists_table_of_le constructed_nested (by decide) (show 1 ≤ 3 by decide) ⟨nestedTable, table_nested⟩

end Grammar

end PredictiveParsing
