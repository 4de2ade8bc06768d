import PredictiveParsing.ParseTree

/-! # Insertion into trees

In a tree that grows by insertion only the last child of a node has open slots. A further tree therefore comes behind
all labels that are there, and takes one open slot and brings its own. A tree is refused exactly if no slot is open. -/

namespace PredictiveParsing

namespace ParseTree

variable {α : Type}

mutual

/-- No node has more children than slots, and none but the last child of a node has open slots. -/
def Grown : ParseTree α → Prop
  | node _ arity children => children.length ≤ arity ∧ GrownAll children

/-- All trees have grown, and none but the last one has open slots. -/
def GrownAll : List (ParseTree α) → Prop
  | [] => True
  | t :: rest => t.Grown ∧ (rest ≠ [] → t.isComplete = true) ∧ GrownAll rest

end

theorem grown_leaf (label : α) (arity : Nat) : (leaf label arity).Grown := ⟨Nat.zero_le arity, trivial⟩

mutual

/-- A tree is complete if no slot is open. -/
theorem openSlots_eq_zero_iff : ∀ {t : ParseTree α}, t.Grown → (t.openSlots = 0 ↔ t.isComplete = true)
  | node _ arity children, ⟨hle, hall⟩ => by
      rw [openSlots, isComplete, Nat.add_eq_zero_iff, totalOpenSlots_eq_zero_iff hall, Bool.and_eq_true,
        decide_eq_true_eq]
      have hfull : arity - children.length = 0 ↔ children.length = arity := by omega
      rw [hfull]

theorem totalOpenSlots_eq_zero_iff : ∀ {ts : List (ParseTree α)}, GrownAll ts →
    (totalOpenSlots ts = 0 ↔ allComplete ts = true)
  | [], _ => ⟨fun _ => rfl, fun _ => rfl⟩
  | t :: rest, ⟨ht, _, hrest⟩ => by
      rw [totalOpenSlots, allComplete, Nat.add_eq_zero_iff, openSlots_eq_zero_iff ht,
        totalOpenSlots_eq_zero_iff hrest, Bool.and_eq_true]

end

theorem preorderAll_append (ts rest : List (ParseTree α)) :
    preorderAll (ts ++ rest) = preorderAll ts ++ preorderAll rest := by
  induction ts with
  | nil => rfl
  | cons t ts ih => rw [List.cons_append, preorderAll, ih, preorderAll, List.append_assoc]

theorem totalOpenSlots_append (ts rest : List (ParseTree α)) :
    totalOpenSlots (ts ++ rest) = totalOpenSlots ts + totalOpenSlots rest := by
  induction ts with
  | nil => rw [List.nil_append, totalOpenSlots, Nat.zero_add]
  | cons t ts ih => rw [List.cons_append, totalOpenSlots, ih, totalOpenSlots, Nat.add_assoc]

theorem grownAll_concat {ts : List (ParseTree α)} {fresh : ParseTree α} (h : GrownAll ts)
    (complete : allComplete ts = true) (hfresh : fresh.Grown) : GrownAll (ts ++ [fresh]) := by
  induction ts with
  | nil => exact ⟨hfresh, fun hne => absurd rfl hne, trivial⟩
  | cons t ts ih =>
      obtain ⟨ht, _, hrest⟩ := h
      rw [allComplete, Bool.and_eq_true] at complete
      exact ⟨ht, fun _ => complete.1, ih hrest complete.2⟩

/-- What a tree refuses is offered to the ones behind it. -/
theorem insertAmong_of_refused {t fresh : ParseTree α} {rest : List (ParseTree α)} (h : t.insert fresh = .error fresh) :
    insertAmong (t :: rest) fresh = (insertAmong rest fresh).map (t :: ·) := by
  rw [insertAmong, h]
  dsimp only
  cases insertAmong rest fresh <;> rfl

section

variable (fresh : ParseTree α)

mutual

/-- A complete tree gives a further one back. -/
theorem insert_of_isComplete : ∀ {t : ParseTree α}, t.isComplete = true → t.insert fresh = .error fresh
  | node _ arity children, h => by
      rw [isComplete, Bool.and_eq_true, decide_eq_true_eq] at h
      rw [insert, insertAmong_of_allComplete h.2]
      exact if_neg (Nat.not_lt.mpr (Nat.le_of_eq h.1.symm))

theorem insertAmong_of_allComplete : ∀ {ts : List (ParseTree α)}, allComplete ts = true →
    insertAmong ts fresh = .error fresh
  | [], _ => rfl
  | t :: rest, h => by
      rw [allComplete, Bool.and_eq_true] at h
      rw [insertAmong_of_refused (insert_of_isComplete h.1), insertAmong_of_allComplete h.2]
      rfl

end

end

/-- A tree with a further one in it: all old labels stand before the new ones, and one slot less is open. -/
structure Gains (t fresh t' : ParseTree α) : Prop where
  grown : t'.Grown
  preorder : t'.preorder = t.preorder ++ fresh.preorder
  openSlots : t'.openSlots + 1 = t.openSlots + fresh.openSlots

/-- Trees with a further one in one of them. -/
structure GainsAmong (ts : List (ParseTree α)) (fresh : ParseTree α) (ts' : List (ParseTree α)) : Prop where
  length : ts'.length = ts.length
  grown : GrownAll ts'
  preorder : preorderAll ts' = preorderAll ts ++ fresh.preorder
  openSlots : totalOpenSlots ts' + 1 = totalOpenSlots ts + fresh.openSlots

variable {fresh : ParseTree α}

mutual

/-- A tree with open slots takes a further one. -/
theorem exists_insert (hfresh : fresh.Grown) : ∀ {t : ParseTree α}, t.Grown → t.isComplete = false →
    ∃ t', t.insert fresh = .ok t' ∧ t.Gains fresh t'
  | node label arity children, ⟨hle, hall⟩, incomplete => by
      rw [isComplete, Bool.and_eq_false_iff, decide_eq_false_iff_not] at incomplete
      cases hchildren : allComplete children with
      | true =>
          rw [hchildren] at incomplete
          have hlt : children.length < arity := by
            have := incomplete.resolve_right Bool.noConfusion
            omega
          refine ⟨node label arity (children ++ [fresh]), ?_, ⟨?_, grownAll_concat hall hchildren hfresh⟩, ?_, ?_⟩
          · rw [insert, insertAmong_of_allComplete fresh hchildren]
            exact if_pos hlt
          · rw [List.length_append]
            exact hlt
          · simp [preorder, preorderAll_append, preorderAll]
          · simp only [openSlots, totalOpenSlots_append, totalOpenSlots, List.length_append, List.length_singleton]
            omega
      | false =>
          obtain ⟨children', hinsert, hlength, hgrown, hpreorder, hslots⟩ := exists_insertAmong hfresh hall hchildren
          refine ⟨node label arity children', by rw [insert, hinsert], ⟨hlength ▸ hle, hgrown⟩, ?_, ?_⟩
          · rw [preorder, hpreorder, preorder, List.cons_append]
          · simp only [openSlots, hlength]
            omega

theorem exists_insertAmong (hfresh : fresh.Grown) : ∀ {ts : List (ParseTree α)}, GrownAll ts →
    allComplete ts = false → ∃ ts', insertAmong ts fresh = .ok ts' ∧ GainsAmong ts fresh ts'
  | [], _, incomplete => by cases incomplete
  | t :: rest, ⟨ht, hlast, hrest⟩, incomplete => by
      rw [allComplete, Bool.and_eq_false_iff] at incomplete
      cases hcomplete : t.isComplete with
      | true =>
          rw [hcomplete] at incomplete
          obtain ⟨rest', hinsert, hlength, hgrown, hpreorder, hslots⟩ :=
            exists_insertAmong hfresh hrest (incomplete.resolve_left Bool.noConfusion)
          refine ⟨t :: rest', ?_, by simp [hlength], ⟨ht, fun _ => hcomplete, hgrown⟩, ?_, ?_⟩
          · rw [insertAmong_of_refused (insert_of_isComplete fresh hcomplete), hinsert]
            rfl
          · rw [preorderAll, hpreorder, preorderAll, List.append_assoc]
          · simp only [totalOpenSlots]
            omega
      | false =>
          -- A child with open slots is the last one.
          have hnil : rest = [] := by
            cases rest with
            | nil => rfl
            | cons =>
                rw [hlast (List.cons_ne_nil _ _)] at hcomplete
                cases hcomplete
          subst hnil
          obtain ⟨t', hinsert, hgrown, hpreorder, hslots⟩ := exists_insert hfresh ht hcomplete
          refine ⟨[t'], ?_, rfl, ⟨hgrown, fun hne => absurd rfl hne, trivial⟩, ?_, ?_⟩
          · rw [insertAmong, hinsert]
          · simp [preorderAll, hpreorder]
          · simp only [totalOpenSlots]
            omega

end

end ParseTree

end PredictiveParsing
