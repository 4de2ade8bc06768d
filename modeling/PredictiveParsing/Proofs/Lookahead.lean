import Mathlib.Data.List.Infix
import Mathlib.Data.List.TakeDrop
import PredictiveParsing.Lookahead

/-! # Bounded words

The words that the analyses handle are well formed and have at most `k` terminals. Appending a terminal keeps a word
so, and a word that is complete is not the beginning of a longer one. -/

namespace PredictiveParsing

namespace Lookahead

variable {w w' : Lookahead} {t : Terminal} {k : Nat}

/-- Well formed and of at most `k` terminals. -/
structure Within (k : Nat) (w : Lookahead) : Prop where
  wellFormed : w.WellFormed
  length_le : w.length ≤ k

theorem isEmpty_iff : w.isEmpty = true ↔ w = .empty := by
  cases w
  simp [isEmpty, empty]

theorem isComplete_eq_false_iff : w.isComplete k = false ↔ w.length < k ∧ w.isTerminated = false := by
  rw [isComplete, Bool.or_eq_false_iff, decide_eq_false_iff_not, Nat.not_le]

theorem isTerminated_iff : w.isTerminated = true ↔ ∃ u, w.terminals = u ++ [.endMarker] := by
  rw [isTerminated, Option.any_eq_true]
  constructor
  · rintro ⟨t, hlast, hend⟩
    obtain ⟨u, hu⟩ := List.getLast?_eq_some_iff.mp hlast
    exact ⟨u, by rw [hu, Terminal.isEnd_iff.mp hend]⟩
  · rintro ⟨u, hu⟩
    exact ⟨.endMarker, by rw [hu, List.getLast?_concat], rfl⟩

theorem within_empty (k : Nat) : Within k .empty := ⟨⟨by simp [empty], by simp [empty]⟩, Nat.zero_le _⟩

theorem isComplete_empty (pos : 0 < k) : empty.isComplete k = false := isComplete_eq_false_iff.mpr ⟨pos, rfl⟩

theorem push?_eq_some_iff :
    w.push? t k = some w' ↔ t ≠ .epsilon ∧ w.isComplete k = false ∧ w' = ⟨w.terminals ++ [t]⟩ := by
  unfold push?
  split
  · rename_i h
    rw [Bool.or_eq_true, Terminal.isEpsilon_iff] at h
    constructor
    · exact fun h' => nomatch h'
    · rintro ⟨hplain, hopen, _⟩
      rcases h with h | h
      · exact absurd h hplain
      · rw [hopen] at h
        cases h
  · rename_i h
    rw [Bool.or_eq_true, Terminal.isEpsilon_iff, not_or, Bool.not_eq_true] at h
    rw [Option.some.injEq, @eq_comm _ _ w']
    exact ⟨fun heq => ⟨h.1, h.2, heq⟩, fun heq => heq.2.2⟩

/-- A word that does not end with the end marker holds none. -/
theorem WellFormed.ne_endMarker (h : w.WellFormed) (unended : w.isTerminated = false) :
    ∀ t ∈ w.terminals, t ≠ .endMarker := by
  rintro _ ht rfl
  rw [← List.dropLast_append_getLast (List.ne_nil_of_mem ht), List.mem_append, List.mem_singleton] at ht
  rcases ht with ht | hlast
  · exact h.2 _ ht rfl
  · have hterminated : w.isTerminated = true :=
      isTerminated_iff.mpr ⟨w.terminals.dropLast, by rw [hlast, List.dropLast_append_getLast]⟩
    rw [unended] at hterminated
    cases hterminated

theorem Within.push? (h : w.Within k) (pushed : w.push? t k = some w') : w'.Within k := by
  obtain ⟨hplain, hopen, rfl⟩ := push?_eq_some_iff.mp pushed
  obtain ⟨hlength, hunended⟩ := isComplete_eq_false_iff.mp hopen
  refine ⟨⟨fun s hs => ?_, ?_⟩, ?_⟩
  · rcases List.mem_append.mp hs with hs | hs
    · exact h.wellFormed.1 s hs
    · rw [List.mem_singleton.mp hs]
      exact hplain
  · rw [List.dropLast_concat]
    exact h.wellFormed.ne_endMarker hunended
  · simp only [length, List.length_append, List.length_singleton] at hlength ⊢
    omega

theorem WellFormed.truncate (h : w.WellFormed) (n : Nat) : (w.truncate n).WellFormed := by
  refine ⟨fun t ht => h.1 t (List.mem_of_mem_take ht), fun t ht => h.2 t ?_⟩
  rw [Lookahead.truncate, List.dropLast_take_eq_take_dropLast] at ht
  exact List.mem_of_mem_take ht

theorem Within.concat {v : Lookahead} (h : w.Within k) (hv : v.WellFormed) : (w.concat v k).Within k := by
  unfold Lookahead.concat
  split
  · exact h
  rename_i hopen
  obtain ⟨hlength, hunended⟩ := isComplete_eq_false_iff.mp (Bool.eq_false_iff.mpr hopen)
  have htail := hv.truncate (k - w.length)
  refine ⟨⟨fun t ht => ?_, fun t ht => ?_⟩, ?_⟩
  · rcases List.mem_append.mp ht with ht | ht
    · exact h.wellFormed.1 t ht
    · exact htail.1 t ht
  · by_cases hnil : v.terminals.take (k - w.length) = []
    · dsimp only at ht
      rw [hnil, List.append_nil] at ht
      exact h.wellFormed.2 t ht
    · rw [List.dropLast_append_of_ne_nil hnil, List.mem_append] at ht
      rcases ht with ht | ht
      · exact h.wellFormed.ne_endMarker hunended t ht
      · exact htail.2 t ht
  · simp only [length, List.length_append, List.length_take] at hlength ⊢
    omega

/-- The empty word is continued by a word within the bound to that word. -/
theorem empty_concat (pos : 0 < k) (h : w.Within k) : empty.concat w k = w := by
  rw [Lookahead.concat, isComplete_empty pos, if_neg Bool.false_ne_true]
  cases w with
  | mk terminals => exact congrArg mk (List.take_of_length_le h.length_le)

theorem ofTerminals_token (plain : t ≠ .epsilon ∧ t ≠ .endMarker) (rest : List Terminal) :
    ofTerminals (t :: rest) = ⟨t :: (ofTerminals rest).terminals⟩ := by
  rw [ofTerminals, clean, if_neg (mt Terminal.isEpsilon_iff.mp plain.1), if_neg (mt Terminal.isEnd_iff.mp plain.2)]
  rfl

theorem ofTerminals_singleton (plain : t ≠ .epsilon) : ofTerminals [t] = ⟨[t]⟩ := by
  rw [ofTerminals, clean, if_neg (mt Terminal.isEpsilon_iff.mp plain), clean, ite_self]

theorem ofTerminals_endMarker (rest : List Terminal) : ofTerminals (.endMarker :: rest) = ⟨[.endMarker]⟩ := rfl

theorem ofTerminals_take_append_endMarker {v : List Terminal} (plain : ∀ t ∈ v, t ≠ .epsilon ∧ t ≠ .endMarker)
    (k : Nat) : ofTerminals ((v ++ [Terminal.endMarker]).take k) = ⟨(v ++ [Terminal.endMarker]).take k⟩ := by
  induction v generalizing k with
  | nil =>
      cases k with
      | zero => rfl
      | succ k => rw [List.nil_append, List.take_succ_cons, ofTerminals_endMarker, List.take_nil]
  | cons t v ih =>
      obtain ⟨ht, hv⟩ := List.forall_mem_cons.mp plain
      cases k with
      | zero => rfl
      | succ k => rw [List.cons_append, List.take_succ_cons, ofTerminals_token ht, ih hv]

theorem wellFormed_ofTerminals (terminals : List Terminal) : (ofTerminals terminals).WellFormed := by
  induction terminals with
  | nil => exact (within_empty 0).wellFormed
  | cons t rest ih =>
      unfold ofTerminals clean
      split
      · exact ih
      · rename_i hplain
        have hplain : t ≠ .epsilon := mt Terminal.isEpsilon_iff.mpr hplain
        split
        · exact ⟨by simpa using hplain, by simp⟩
        · rename_i hopen
          refine ⟨List.forall_mem_cons.mpr ⟨hplain, ih.1⟩, fun s hs => ?_⟩
          by_cases hnil : clean rest = []
          · simp [hnil] at hs
          · rw [List.dropLast_cons_of_ne_nil hnil, List.mem_cons] at hs
            rcases hs with rfl | hs
            · exact mt Terminal.isEnd_iff.mpr hopen
            · exact ih.2 s hs

theorem length_ofTerminals_le (terminals : List Terminal) : (ofTerminals terminals).length ≤ terminals.length := by
  induction terminals with
  | nil => exact Nat.le_refl _
  | cons t rest ih =>
      simp only [ofTerminals, length] at ih ⊢
      unfold clean
      split
      · exact Nat.le_succ_of_le ih
      · split
        · simp
        · exact Nat.succ_le_succ ih

/-- A complete word is not continued within the bound. -/
theorem eq_nil_of_isComplete {v : List Terminal} (complete : w.isComplete k = true)
    (within : Within k ⟨w.terminals ++ v⟩) : v = [] := by
  by_contra hne
  rw [isComplete, Bool.or_eq_true, decide_eq_true_eq] at complete
  rcases complete with hlength | hterminated
  · have hle := within.length_le
    have hpos := List.length_pos_iff.mpr hne
    simp only [length, List.length_append] at hle hlength
    omega
  · obtain ⟨u, hu⟩ := isTerminated_iff.mp hterminated
    have hmem : Terminal.endMarker ∈ (w.terminals ++ v).dropLast := by
      rw [List.dropLast_append_of_ne_nil hne, hu]
      simp
    exact within.wellFormed.2 _ hmem rfl

theorem Within.left {u v : List Terminal} (h : Within k ⟨u ++ v⟩) : Within k ⟨u⟩ := by
  refine ⟨⟨fun t ht => h.wellFormed.1 t (List.mem_append_left v ht), fun t ht => h.wellFormed.2 t ?_⟩, ?_⟩
  · by_cases hnil : v = []
    · rwa [hnil, List.append_nil]
    · rw [List.dropLast_append_of_ne_nil hnil]
      exact List.mem_append_left _ (List.mem_of_mem_dropLast ht)
  · have hle := h.length_le
    simp only [length, List.length_append] at hle ⊢
    omega

theorem Within.right {u v : List Terminal} (h : Within k ⟨u ++ v⟩) : Within k ⟨v⟩ := by
  refine ⟨⟨fun t ht => h.wellFormed.1 t (List.mem_append_right u ht), fun t ht => h.wellFormed.2 t ?_⟩, ?_⟩
  · have hnil : v ≠ [] := by
      rintro rfl
      cases ht
    rw [List.dropLast_append_of_ne_nil hnil]
    exact List.mem_append_right u ht
  · have hle := h.length_le
    simp only [length, List.length_append] at hle ⊢
    omega

/-- What stands behind a word that is not complete when it is added is not complete either. -/
theorem isComplete_right {u v : List Terminal} (h : isComplete ⟨u ++ v⟩ k = false) : isComplete ⟨v⟩ k = false := by
  obtain ⟨hlength, hunended⟩ := isComplete_eq_false_iff.mp h
  apply isComplete_eq_false_iff.mpr
  constructor
  · simp only [length, List.length_append] at hlength ⊢
    omega
  · rw [Bool.eq_false_iff] at hunended ⊢
    intro hterminated
    apply hunended
    obtain ⟨s, hs⟩ := isTerminated_iff.mp hterminated
    exact isTerminated_iff.mpr ⟨u ++ s, by rw [List.append_assoc, ← hs]⟩

/-! A smaller bound sees the beginnings of the words that a larger one sees. -/

theorem concat_of_isComplete (complete : w.isComplete k = true) (v : Lookahead) : w.concat v k = w := by
  rw [concat, if_pos complete]

theorem concat_of_open (h : w.isComplete k = false) (v : Lookahead) :
    w.concat v k = ⟨w.terminals ++ v.terminals.take (k - w.length)⟩ := by
  rw [concat, h, if_neg Bool.false_ne_true]

theorem concat_empty (w : Lookahead) (k : Nat) : w.concat .empty k = w := by
  rw [concat, empty, List.take_nil, List.append_nil, ite_self]

/-- A concatenation adds a beginning of the second word, and all of it unless it becomes complete. -/
theorem exists_concat_eq (w v : Lookahead) (k : Nat) :
    ∃ s t, (w.concat v k).terminals = w.terminals ++ s ∧ v.terminals = s ++ t ∧
      ((w.concat v k).isComplete k = true ∨ t = []) := by
  cases hcomplete : w.isComplete k with
  | true =>
      rw [concat_of_isComplete hcomplete]
      exact ⟨[], v.terminals, by simp, rfl, Or.inl hcomplete⟩
  | false =>
      rw [concat_of_open hcomplete]
      refine ⟨_, _, rfl, (List.take_append_drop (k - w.length) v.terminals).symm, ?_⟩
      rw [isComplete, Bool.or_eq_true, decide_eq_true_eq, List.drop_eq_nil_iff]
      simp only [length, List.length_append, List.length_take]
      omega

/-- A word that is continued by a complete word becomes complete. -/
theorem isComplete_concat {v : Lookahead} (complete : v.isComplete k = true) : (w.concat v k).isComplete k = true := by
  obtain ⟨s, t, hconcat, hv, hstop⟩ := exists_concat_eq w v k
  rcases hstop with hdone | rfl
  · exact hdone
  · rw [List.append_nil] at hv
    by_contra hopen
    rw [Bool.not_eq_true, isComplete, length, isTerminated, hconcat] at hopen
    have hright : isComplete ⟨s⟩ k = false := isComplete_right hopen
    rw [← hv, complete] at hright
    cases hright

theorem truncate_of_length_le (h : w.length ≤ k) : w.truncate k = w := by
  cases w
  exact congrArg mk (List.take_of_length_le h)

theorem isComplete_of_le {j : Nat} (le : j ≤ k) (complete : w.isComplete k = true) : w.isComplete j = true := by
  rw [isComplete, Bool.or_eq_true, decide_eq_true_eq] at complete ⊢
  exact complete.imp_left (Nat.le_trans le)

/-- What lies behind a complete word is cut off. -/
theorem truncate_append {j : Nat} {v : List Terminal} (complete : w.isComplete j = true) (length : w.length ≤ j)
    (within : Within k ⟨w.terminals ++ v⟩) : truncate ⟨w.terminals ++ v⟩ j = w := by
  by_cases hfull : j ≤ w.length
  · obtain rfl := Nat.le_antisymm hfull length
    exact congrArg mk List.take_left
  · have hterminated : w.isTerminated = true := by
      rw [isComplete, Bool.or_eq_true, decide_eq_true_eq] at complete
      exact complete.resolve_left hfull
    have hcomplete : w.isComplete k = true := by rw [isComplete, hterminated, Bool.or_true]
    obtain rfl := eq_nil_of_isComplete hcomplete within
    rw [List.append_nil]
    exact truncate_of_length_le length

theorem isComplete_truncate {j : Nat} (le : j ≤ k) (complete : w.isComplete k = true) :
    (w.truncate j).isComplete j = true := by
  rw [isComplete, Bool.or_eq_true, decide_eq_true_eq, length_truncate]
  by_cases hlength : j ≤ w.length
  · exact Or.inl (by omega)
  · rw [isComplete, Bool.or_eq_true, decide_eq_true_eq] at complete
    rw [truncate_of_length_le (by omega)]
    exact Or.inr (complete.resolve_left (by omega))

/-- Truncation goes through a concatenation. -/
theorem truncate_concat (u v : Lookahead) {j : Nat} (le : j ≤ k) :
    (u.concat v k).truncate j = (u.truncate j).concat (v.truncate j) j := by
  cases hcomplete : u.isComplete k with
  | true => rw [concat_of_isComplete hcomplete, concat_of_isComplete (isComplete_truncate le hcomplete)]
  | false =>
      obtain ⟨_, hunended⟩ := isComplete_eq_false_iff.mp hcomplete
      rw [concat_of_open hcomplete]
      by_cases hlength : j ≤ u.length
      · have hfull : (u.truncate j).isComplete j = true := by
          rw [isComplete, Bool.or_eq_true, decide_eq_true_eq, length_truncate]
          exact Or.inl (by omega)
        rw [concat_of_isComplete hfull]
        exact congrArg mk (List.take_append_of_le_length hlength)
      · have hopen : u.isComplete j = false := isComplete_eq_false_iff.mpr ⟨by omega, hunended⟩
        rw [truncate_of_length_le (Nat.le_of_not_le hlength), concat_of_open hopen]
        refine congrArg mk ?_
        rw [List.take_append, List.take_of_length_le (Nat.le_of_not_le hlength)]
        dsimp only [truncate]
        rw [List.take_take, List.take_take, length] at *
        congr 2
        omega

end Lookahead

end PredictiveParsing
