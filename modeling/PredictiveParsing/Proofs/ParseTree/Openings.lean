import PredictiveParsing.Proofs.ParseTree.Insertion

/-! # Kinds of open slots

Let every label say what kind of child belongs into each of its slots, and be of a kind itself. The open slots of a
tree then have kinds, in the order in which insertion fills them. A further tree of the first of these kinds takes
that slot, and its own open slots come in place of it, in front of all others. -/

namespace PredictiveParsing

namespace ParseTree

variable {α β : Type} (slots : α → List β) (kind : α → Option β)

mutual

/-- Every node has a slot for each of the kinds that its label asks for, and the child in each slot that is filled is
of the kind asked for there. -/
def Fits : ParseTree α → Prop
  | node label arity children => arity = (slots label).length ∧ FitAll (slots label) children

/-- The first tree is of the first kind, the second one of the second kind, and so on, and each of them fits. -/
def FitAll : List β → List (ParseTree α) → Prop
  | _, [] => True
  | [], _ :: _ => False
  | b :: kinds, t :: rest => kind t.label = some b ∧ t.Fits ∧ FitAll kinds rest

end

mutual

/-- The kinds of the open slots, in the order in which they are filled. -/
def openings : ParseTree α → List β
  | node label _ children => openingsAll children ++ (slots label).drop children.length

/-- The kinds of the open slots of all trees. -/
def openingsAll : List (ParseTree α) → List β
  | [] => []
  | t :: rest => t.openings ++ openingsAll rest

end

variable {slots kind}

theorem fits_leaf (label : α) : (leaf label (slots label).length).Fits slots kind := ⟨rfl, by rw [FitAll]; trivial⟩

theorem openings_leaf (label : α) (arity : Nat) : (leaf label arity).openings slots = slots label := rfl

mutual

theorem length_openings : ∀ {t : ParseTree α}, t.Fits slots kind → (t.openings slots).length = t.openSlots
  | node label arity children, h => by
      rw [Fits] at h
      rw [openings, List.length_append, length_openingsAll h.2, List.length_drop, ← h.1, openSlots, Nat.add_comm]

theorem length_openingsAll : ∀ {kinds : List β} {ts : List (ParseTree α)}, FitAll slots kind kinds ts →
    (openingsAll slots ts).length = totalOpenSlots ts
  | _, [], _ => rfl
  | [], _ :: _, h => by rw [FitAll] at h; cases h
  | _ :: _, t :: rest, h => by
      rw [FitAll] at h
      rw [openingsAll, List.length_append, length_openings h.2.1, length_openingsAll h.2.2, totalOpenSlots]

end

theorem openingsAll_append (ts rest : List (ParseTree α)) :
    openingsAll slots (ts ++ rest) = openingsAll slots ts ++ openingsAll slots rest := by
  induction ts with
  | nil => rfl
  | cons t ts ih => rw [List.cons_append, openingsAll, ih, openingsAll, List.append_assoc]

theorem fitAll_concat {kinds later : List β} {b : β} {ts : List (ParseTree α)} {fresh : ParseTree α}
    (h : FitAll slots kind kinds ts) (next : kinds.drop ts.length = b :: later) (hkind : kind fresh.label = some b)
    (hfresh : fresh.Fits slots kind) : FitAll slots kind kinds (ts ++ [fresh]) := by
  induction ts generalizing kinds with
  | nil =>
      obtain rfl : kinds = b :: later := next
      rw [List.nil_append, FitAll, FitAll]
      exact ⟨hkind, hfresh, trivial⟩
  | cons t ts ih =>
      cases kinds with
      | nil => cases next
      | cons c kinds =>
          rw [FitAll] at h
          rw [List.cons_append, FitAll]
          exact ⟨h.1, h.2.1, ih h.2.2 next⟩

variable {fresh : ParseTree α}

mutual

/-- A tree without open slots refuses a further one; otherwise that takes the first open slot if it is of its kind. -/
theorem insert_cases (hfresh : fresh.Fits slots kind) : ∀ {t : ParseTree α}, t.Fits slots kind →
    (t.openings slots = [] ∧ t.insert fresh = .error fresh) ∨
      ∃ b later t', t.openings slots = b :: later ∧ t.insert fresh = .ok t' ∧ t'.label = t.label ∧
        (kind fresh.label = some b → t'.Fits slots kind ∧ t'.openings slots = fresh.openings slots ++ later)
  | node label arity children, h => by
      rw [Fits] at h
      obtain ⟨rfl, hall⟩ := h
      rcases insertAmong_cases hfresh hall with
        ⟨hnone, hinsert⟩ | ⟨b, later, children', hopen, hinsert, hlength, htaken⟩
      · cases hnext : (slots label).drop children.length with
        | nil =>
            refine Or.inl ⟨by rw [openings, hnone, hnext, List.nil_append], ?_⟩
            rw [insert, hinsert]
            exact if_neg (Nat.not_lt.mpr (List.drop_eq_nil_iff.mp hnext))
        | cons b later =>
            have hlt : children.length < (slots label).length := by
              rw [← Nat.not_le, ← List.drop_eq_nil_iff, hnext]
              exact List.cons_ne_nil b later
            refine Or.inr ⟨b, later, node label (slots label).length (children ++ [fresh]), ?_, ?_, rfl, ?_⟩
            · rw [openings, hnone, hnext, List.nil_append]
            · rw [insert, hinsert]
              exact if_pos hlt
            · intro hkind
              rw [Fits, openings, openingsAll_append, hnone, List.length_append, ← List.drop_drop, hnext]
              exact ⟨⟨rfl, fitAll_concat hall hnext hkind hfresh⟩, by simp [openingsAll]⟩
      · refine Or.inr
          ⟨b, later ++ (slots label).drop children.length, node label (slots label).length children', ?_, ?_, rfl, ?_⟩
        · rw [openings, hopen, List.cons_append]
        · rw [insert, hinsert]
        · intro hkind
          obtain ⟨hfit, hopenings⟩ := htaken hkind
          rw [Fits, openings, hopenings, hlength, List.append_assoc]
          exact ⟨⟨rfl, hfit⟩, rfl⟩

theorem insertAmong_cases (hfresh : fresh.Fits slots kind) : ∀ {kinds : List β} {ts : List (ParseTree α)},
    FitAll slots kind kinds ts →
    (openingsAll slots ts = [] ∧ insertAmong ts fresh = .error fresh) ∨
      ∃ b later ts', openingsAll slots ts = b :: later ∧ insertAmong ts fresh = .ok ts' ∧ ts'.length = ts.length ∧
        (kind fresh.label = some b →
          FitAll slots kind kinds ts' ∧ openingsAll slots ts' = fresh.openings slots ++ later)
  | _, [], _ => Or.inl ⟨rfl, rfl⟩
  | [], _ :: _, h => by rw [FitAll] at h; cases h
  | c :: kinds, t :: rest, h => by
      rw [FitAll] at h
      obtain ⟨hkindt, ht, hrest⟩ := h
      rcases insert_cases hfresh ht with ⟨hnone, hinsert⟩ | ⟨b, later, t', hopen, hinsert, hlabel, htaken⟩
      · rcases insertAmong_cases hfresh hrest with
          ⟨hnone', hinsert'⟩ | ⟨b, later, rest', hopen, hinsert', hlength, htaken⟩
        · refine Or.inl ⟨by rw [openingsAll, hnone, hnone', List.nil_append], ?_⟩
          rw [insertAmong_of_refused hinsert, hinsert']
          rfl
        · refine Or.inr ⟨b, later, t :: rest', ?_, ?_, congrArg Nat.succ hlength, ?_⟩
          · rw [openingsAll, hnone, hopen, List.nil_append]
          · rw [insertAmong_of_refused hinsert, hinsert']
            rfl
          · intro hkind
            obtain ⟨hfit, hopenings⟩ := htaken hkind
            rw [FitAll, openingsAll, hnone, hopenings]
            exact ⟨⟨hkindt, ht, hfit⟩, rfl⟩
      · refine Or.inr ⟨b, later ++ openingsAll slots rest, t' :: rest, ?_, ?_, rfl, ?_⟩
        · rw [openingsAll, hopen, List.cons_append]
        · rw [insertAmong, hinsert]
        · intro hkind
          obtain ⟨hfit, hopenings⟩ := htaken hkind
          rw [FitAll, openingsAll, hopenings, hlabel, List.append_assoc]
          exact ⟨⟨hkindt, hfit, hrest⟩, rfl⟩

end

end ParseTree

end PredictiveParsing
