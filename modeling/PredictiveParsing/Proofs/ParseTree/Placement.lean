import PredictiveParsing.Proofs.ParseTree.Insertion

/-! # Placement in trees

A tree grows in place: a call puts a further tree into its leftmost open slot, or gives the further one back. On its way
the call works on one child after the other, also on those that refuse the further tree; none of them is changed by
that. The trees that any sequence of such calls makes from single nodes, prebuilt ones with open slots among them, are
open only at the end of their preorder. -/

namespace PredictiveParsing

namespace ParseTree

variable {α β : Type}

mutual

/-- Puts a further tree into the leftmost open slot, or gives it back; in either case something is left of the tree. -/
def place : ParseTree α → ParseTree α → Except (ParseTree α) Unit × ParseTree α
  | node label arity children, fresh =>
    match placeAmong children fresh with
    | (.ok (), children) => (.ok (), node label arity children)
    | (.error fresh, children) =>
      if children.length < arity then (.ok (), node label arity (children ++ [fresh]))
      else (.error fresh, node label arity children)

/-- Offers a further tree to one tree after the other, until one of them takes it. -/
def placeAmong : List (ParseTree α) → ParseTree α → Except (ParseTree α) Unit × List (ParseTree α)
  | [], fresh => (.error fresh, [])
  | t :: rest, fresh =>
    match t.place fresh with
    | (.ok (), t) => (.ok (), t :: rest)
    | (.error fresh, t) => ((placeAmong rest fresh).1, t :: (placeAmong rest fresh).2)

end

/-- Work in place that leaves what has been computed, or everything as it was if the computation gives a tree back. -/
def inPlace (before : β) : Except (ParseTree α) β → Except (ParseTree α) Unit × β
  | .ok after => (.ok (), after)
  | .error back => (.error back, before)

mutual

/-- Placement leaves the tree with the further one in it, or the tree as it was. -/
theorem place_eq : ∀ t fresh : ParseTree α, t.place fresh = inPlace t (t.insert fresh)
  | node label arity children, fresh => by
      rw [place, insert, placeAmong_eq children fresh]
      cases insertAmong children fresh with
      | ok children' => rfl
      | error back =>
          dsimp only [inPlace]
          split <;> rfl

theorem placeAmong_eq : ∀ (ts : List (ParseTree α)) (fresh : ParseTree α),
    placeAmong ts fresh = inPlace ts (insertAmong ts fresh)
  | [], _ => rfl
  | t :: rest, fresh => by
      rw [placeAmong, insertAmong, place_eq t fresh]
      cases t.insert fresh with
      | ok t' => rfl
      | error back =>
          dsimp only [inPlace]
          rw [placeAmong_eq rest back]
          cases insertAmong rest back <;> rfl

end

/-- Made from single nodes by placing trees in trees, with all that refused calls leave and give back. -/
inductive Constructed : ParseTree α → Prop where
  | leaf (label : α) (arity : Nat) : Constructed (leaf label arity)
  | place {t fresh : ParseTree α} (ht : Constructed t) (hfresh : Constructed fresh) : Constructed (t.place fresh).2
  | givenBack {t fresh back : ParseTree α} (ht : Constructed t) (hfresh : Constructed fresh)
      (refused : (t.place fresh).1 = .error back) : Constructed back

/-- A tree takes a further one unless it is complete. -/
theorem Grown.insert_cases {t fresh : ParseTree α} (ht : t.Grown) (hfresh : fresh.Grown) :
    (t.isComplete = true ∧ t.insert fresh = .error fresh) ∨
      t.isComplete = false ∧ ∃ t', t.insert fresh = .ok t' ∧ t.Gains fresh t' := by
  cases hcomplete : t.isComplete with
  | true => exact .inl ⟨rfl, insert_of_isComplete fresh hcomplete⟩
  | false => exact .inr ⟨rfl, exists_insert hfresh ht hcomplete⟩

theorem Constructed.grown {t : ParseTree α} (h : t.Constructed) : t.Grown := by
  induction h with
  | leaf label arity => exact grown_leaf label arity
  | @place t fresh _ _ iht ihfresh =>
      rw [place_eq]
      rcases iht.insert_cases ihfresh with ⟨_, hinsert⟩ | ⟨_, t', hinsert, hgains⟩
      · rw [hinsert]
        exact iht
      · rw [hinsert]
        exact hgains.grown
  | @givenBack t fresh back _ _ refused iht ihfresh =>
      rw [place_eq] at refused
      rcases iht.insert_cases ihfresh with ⟨_, hinsert⟩ | ⟨_, t', hinsert, _⟩
      · rw [hinsert] at refused
        exact Except.error.inj refused ▸ ihfresh
      · rw [hinsert] at refused
        cases refused

mutual

/-- The nodes of a tree, each with all that hangs below it. -/
def nodes : ParseTree α → List (ParseTree α)
  | node label arity children => node label arity children :: nodesAll children

def nodesAll : List (ParseTree α) → List (ParseTree α)
  | [] => []
  | t :: rest => t.nodes ++ nodesAll rest

end

theorem GrownAll.isComplete {ts : List (ParseTree α)} (h : GrownAll ts) : ∀ t ∈ ts.dropLast, t.isComplete = true := by
  induction ts with
  | nil => exact List.forall_mem_nil _
  | cons t rest ih =>
      obtain ⟨_, hcomplete, hrest⟩ := h
      cases rest with
      | nil => exact List.forall_mem_nil _
      | cons => exact List.forall_mem_cons.mpr ⟨hcomplete (List.cons_ne_nil _ _), ih hrest⟩

mutual

/-- No node has more children than slots, and none but the last child of a node has open slots. -/
theorem Grown.forall_nodes : ∀ {t : ParseTree α}, t.Grown →
    ∀ s ∈ t.nodes, s.children.length ≤ s.arity ∧ ∀ child ∈ s.children.dropLast, child.isComplete = true
  | node _ _ _, ⟨hle, hall⟩ => by
      rw [nodes]
      exact List.forall_mem_cons.mpr ⟨⟨hle, hall.isComplete⟩, GrownAll.forall_nodes hall⟩

theorem GrownAll.forall_nodes : ∀ {ts : List (ParseTree α)}, GrownAll ts →
    ∀ s ∈ nodesAll ts, s.children.length ≤ s.arity ∧ ∀ child ∈ s.children.dropLast, child.isComplete = true
  | [], _ => List.forall_mem_nil _
  | _ :: _, ⟨ht, _, hrest⟩ => by
      rw [nodesAll]
      exact List.forall_mem_append.mpr ⟨Grown.forall_nodes ht, GrownAll.forall_nodes hrest⟩

end

mutual

theorem length_preorder : ∀ t : ParseTree α, t.preorder.length = t.size
  | node _ _ children => by
      rw [preorder, List.length_cons, length_preorderAll children, size, Nat.add_comm]

theorem length_preorderAll : ∀ ts : List (ParseTree α), (preorderAll ts).length = totalSize ts
  | [] => rfl
  | t :: rest => by
      rw [preorderAll, List.length_append, length_preorder t, length_preorderAll rest, totalSize]

end

/-- A tree refuses a further one exactly if it is complete; it is left as it was then, and the further tree is given
back. Otherwise the further tree comes behind all nodes in preorder: it takes one open slot and brings its own. -/
theorem placement_appends {t fresh : ParseTree α} (ht : t.Constructed) (hfresh : fresh.Constructed) :
    ((∃ back, t.insert fresh = .error back) ↔ t.isComplete = true) ∧
    (∀ back, t.insert fresh = .error back → back = fresh ∧ t.place fresh = (.error fresh, t)) ∧
    (∀ t', t.insert fresh = .ok t' →
      t.place fresh = (.ok (), t') ∧
      t'.preorder = t.preorder ++ fresh.preorder ∧
      t'.size = t.size + fresh.size ∧
      0 < t.openSlots ∧ t'.openSlots = t.openSlots - 1 + fresh.openSlots) ∧
    ∀ s ∈ t.nodes, s.children.length ≤ s.arity ∧ ∀ child ∈ s.children.dropLast, child.isComplete = true := by
  rw [place_eq]
  rcases ht.grown.insert_cases hfresh.grown with ⟨hcomplete, hinsert⟩ | ⟨hincomplete, t', hinsert, hgains⟩
  · rw [hinsert, hcomplete]
    refine ⟨⟨fun _ => rfl, fun _ => ⟨fresh, rfl⟩⟩, ?_, fun _ hok => (nomatch hok), ht.grown.forall_nodes⟩
    rintro _ ⟨⟩
    exact ⟨rfl, rfl⟩
  · rw [hinsert, hincomplete]
    refine ⟨⟨fun ⟨_, herror⟩ => (nomatch herror), (nomatch ·)⟩, fun _ herror => (nomatch herror), ?_,
      ht.grown.forall_nodes⟩
    rintro _ ⟨⟩
    have hopen : t.openSlots ≠ 0 := by
      rw [Ne, openSlots_eq_zero_iff ht.grown, hincomplete]
      exact Bool.false_ne_true
    have hslots := hgains.openSlots
    refine ⟨rfl, hgains.preorder, ?_, by omega, by omega⟩
    rw [← length_preorder, hgains.preorder, List.length_append, length_preorder, length_preorder]

/-- A node with one child of two. -/
def halfFilled : ParseTree Nat := ((leaf 1 2).place (leaf 2 0)).2

theorem constructed_halfFilled : halfFilled.Constructed := .place (.leaf 1 2) (.leaf 2 0)

/-- A tree with open slots goes into the first of two slots, and its own is filled before the second one. A complete
tree gives it back. -/
theorem placement_of_halfFilled_appends :
    halfFilled.Constructed ∧
    (∃ t, (leaf 0 2).insert halfFilled = .ok t ∧ t.preorder = [0, 1, 2] ∧ t.size = 3 ∧ t.openSlots = 2 ∧
      ∃ t', t.insert (leaf 3 0) = .ok t' ∧ t'.preorder = [0, 1, 2, 3] ∧ t'.openSlots = 1) ∧
    (leaf 2 0).place halfFilled = (.error halfFilled, leaf 2 0) := by
  have hroot : (leaf 0 2).insert halfFilled = .ok (node 0 2 [halfFilled]) := rfl
  have hfilled : (node 0 2 [halfFilled]).insert (leaf 3 0) = .ok (node 0 2 [node 1 2 [leaf 2 0, leaf 3 0]]) := rfl
  have hrefused : (leaf 2 0).insert halfFilled = .error halfFilled := rfl
  obtain ⟨_, _, htaken, _⟩ := placement_appends (.leaf 0 2) constructed_halfFilled
  obtain ⟨hplace, hpreorder, hsize, _, hslots⟩ := htaken _ hroot
  have hconstructed : (node 0 2 [halfFilled]).Constructed := by
    have := Constructed.place (.leaf 0 2) constructed_halfFilled
    rwa [hplace] at this
  obtain ⟨_, _, htaken', _⟩ := placement_appends hconstructed (.leaf 3 0)
  obtain ⟨_, hpreorder', _, _, hslots'⟩ := htaken' _ hfilled
  obtain ⟨_, hback, _⟩ := placement_appends (.leaf 2 0) constructed_halfFilled
  exact ⟨constructed_halfFilled, ⟨_, hroot, hpreorder, hsize, hslots, _, hfilled, hpreorder', hslots'⟩,
    (hback _ hrefused).2⟩

end ParseTree

end PredictiveParsing
