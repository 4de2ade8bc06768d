import Mathlib.Data.List.Permutation
import PredictiveParsing.MultiMap

/-! # Images of finite sets and maps

A function takes a set to the set of its values, and a map to a map between the values. The order of the members can
change on the way, so images are compared by what they hold. Nothing falls together if the function is injective. -/

namespace PredictiveParsing

open Std

theorem nodup_toList {α : Type} [Ord α] [TransOrd α] (s : ExtTreeSet α) : s.toList.Nodup := by
  refine ExtTreeSet.distinct_toList.imp fun hne heq => hne ?_
  rw [heq]
  exact ReflCmp.compare_self

variable {α β γ δ : Type} [Ord α] [TransOrd α] [LawfulEqOrd α] [Ord β] [TransOrd β] [LawfulEqOrd β] [DecidableEq β]

/-- The image of a set. -/
def image (f : α → β) (s : ExtTreeSet α) : ExtTreeSet β := .ofList (s.toList.map f)

section Sets

variable {f : α → β} {s : ExtTreeSet α}

theorem mem_image {b : β} : b ∈ image f s ↔ ∃ a ∈ s, f a = b := by
  rw [image, ExtTreeSet.mem_ofList, List.contains_iff_mem, List.mem_map]
  simp only [ExtTreeSet.mem_toList]

omit [TransOrd β] [LawfulEqOrd β] [DecidableEq β] in
theorem image_congr {f' : α → β} (h : ∀ a ∈ s, f a = f' a) : image f s = image f' s := by
  rw [image, image, List.map_congr_left fun a ha => h a (ExtTreeSet.mem_toList.mp ha)]

theorem image_empty : image f ∅ = ∅ := by
  apply ExtTreeSet.ext_mem
  intro b
  rw [mem_image]
  simp

theorem image_insert (a : α) : image f (s.insert a) = (image f s).insert (f a) := by
  apply ExtTreeSet.ext_mem
  intro b
  simp only [mem_image, ExtTreeSet.mem_insert, LawfulEqOrd.compare_eq_iff_eq]
  constructor
  · rintro ⟨c, rfl | hc, rfl⟩
    · exact Or.inl rfl
    · exact Or.inr ⟨c, hc, rfl⟩
  · rintro (rfl | ⟨c, hc, rfl⟩)
    · exact ⟨a, Or.inl rfl, rfl⟩
    · exact ⟨c, Or.inr hc, rfl⟩

theorem all_toList_image (holds : β → Bool) : (image f s).toList.all holds = s.toList.all fun a => holds (f a) := by
  rw [Bool.eq_iff_iff, List.all_eq_true, List.all_eq_true]
  simp only [ExtTreeSet.mem_toList, mem_image]
  exact ⟨fun h a ha => h (f a) ⟨a, ha, rfl⟩, fun h _ ⟨a, ha, heq⟩ => heq ▸ h a ha⟩

theorem any_toList_image (holds : β → Bool) : (image f s).toList.any holds = s.toList.any fun a => holds (f a) := by
  rw [List.any_eq_not_all_not, List.any_eq_not_all_not, all_toList_image]

variable (inj : Function.Injective f)
include inj

theorem mem_image_of_injective {a : α} : f a ∈ image f s ↔ a ∈ s := by
  rw [mem_image]
  exact ⟨fun ⟨_, h, heq⟩ => inj heq ▸ h, fun h => ⟨a, h, rfl⟩⟩

theorem contains_image (a : α) : (image f s).contains (f a) = s.contains a := by
  rw [Bool.eq_iff_iff, ExtTreeSet.contains_iff_mem, ExtTreeSet.contains_iff_mem]
  exact mem_image_of_injective inj

/-- The members of the image are the values of the members, in some order. -/
theorem toList_image : (image f s).toList.Perm (s.toList.map f) := by
  rw [List.perm_ext_iff_of_nodup (nodup_toList _) (List.Nodup.map inj (nodup_toList s))]
  intro b
  simp only [ExtTreeSet.mem_toList, mem_image, List.mem_map]

end Sets

/-- The image of a map, by a function of the keys and one of the values. -/
def relabel (f : α → β) (g : γ → δ) (m : ExtTreeMap α γ) : ExtTreeMap β δ :=
  .ofList (m.toList.map fun entry => (f entry.1, g entry.2))

section Maps

variable {f : α → β} {g : γ → δ} {m : ExtTreeMap α γ}

theorem mem_relabel {b : β} : b ∈ relabel f g m ↔ ∃ a ∈ m, f a = b := by
  rw [relabel, ExtTreeMap.mem_ofList, List.contains_iff_mem, List.map_map, List.mem_map]
  constructor
  · rintro ⟨⟨a, c⟩, hentry, rfl⟩
    have hfound := ExtTreeMap.mem_toList_iff_getElem?_eq_some.mp hentry
    exact ⟨a, ExtTreeMap.mem_iff_isSome_getElem?.mpr (by rw [hfound]; rfl), rfl⟩
  · rintro ⟨a, ha, rfl⟩
    obtain ⟨c, hc⟩ := Option.isSome_iff_exists.mp (ExtTreeMap.mem_iff_isSome_getElem?.mp ha)
    exact ⟨(a, c), ExtTreeMap.mem_toList_iff_getElem?_eq_some.mpr hc, rfl⟩

omit [TransOrd β] [LawfulEqOrd β] [DecidableEq β] in
/-- Functions that agree on the entries of a map have the same image of it. -/
theorem relabel_congr {f' : α → β} {g' : γ → δ} (h : ∀ a c, m[a]? = some c → f a = f' a ∧ g c = g' c) :
    relabel f g m = relabel f' g' m := by
  rw [relabel, relabel]
  congr 1
  refine List.map_congr_left fun entry mem => ?_
  obtain ⟨hkey, hvalue⟩ := h entry.1 entry.2 (ExtTreeMap.mem_toList_iff_getElem?_eq_some.mp mem)
  rw [hkey, hvalue]

variable (inj : Function.Injective f)
include inj

theorem getElem?_relabel (a : α) : (relabel f g m)[f a]? = m[a]?.map g := by
  cases hfound : m[a]? with
  | none =>
      refine ExtTreeMap.getElem?_eq_none fun hmem => ?_
      obtain ⟨other, hother, heq⟩ := mem_relabel.mp hmem
      rw [inj heq, ExtTreeMap.mem_iff_isSome_getElem?, hfound] at hother
      cases hother
  | some c =>
      apply ExtTreeMap.getElem?_ofList_of_mem ReflCmp.compare_self
      · rw [List.pairwise_map]
        refine ExtTreeMap.distinct_keys_toList.imp fun hne heq => hne ?_
        rw [LawfulEqOrd.compare_eq_iff_eq] at heq ⊢
        exact inj heq
      · exact List.mem_map.mpr ⟨(a, c), ExtTreeMap.mem_toList_iff_getElem?_eq_some.mpr hfound, rfl⟩

/-- A map is an image if it holds the values of the image and no other keys. -/
theorem eq_relabel {m' : ExtTreeMap β δ} (values : ∀ a, m'[f a]? = m[a]?.map g)
    (keys : ∀ b ∈ m', ∃ a, f a = b) : m' = relabel f g m := by
  apply ExtTreeMap.ext_getElem?
  intro b
  by_cases hvalue : ∃ a, f a = b
  · obtain ⟨a, rfl⟩ := hvalue
    rw [values, getElem?_relabel inj]
  · rw [ExtTreeMap.getElem?_eq_none fun hmem => hvalue (keys b hmem), ExtTreeMap.getElem?_eq_none fun hmem => ?_]
    obtain ⟨a, _, heq⟩ := mem_relabel.mp hmem
    exact hvalue ⟨a, heq⟩

theorem relabel_insert (a : α) (c : γ) : relabel f g (m.insert a c) = (relabel f g m).insert (f a) (g c) := by
  refine (eq_relabel inj (fun other => ?_) fun b hb => ?_).symm
  · rw [ExtTreeMap.getElem?_insert, ExtTreeMap.getElem?_insert, getElem?_relabel inj]
    by_cases heq : a = other
    · rw [heq, if_pos ReflCmp.compare_self, if_pos ReflCmp.compare_self]
      rfl
    · rw [if_neg (by rwa [LawfulEqOrd.compare_eq_iff_eq, inj.eq_iff]),
        if_neg (by rwa [LawfulEqOrd.compare_eq_iff_eq])]
  · rw [ExtTreeMap.mem_insert, LawfulEqOrd.compare_eq_iff_eq, mem_relabel] at hb
    rcases hb with rfl | ⟨other, _, rfl⟩
    · exact ⟨a, rfl⟩
    · exact ⟨other, rfl⟩

omit inj in
theorem relabel_empty : relabel f g ∅ = ∅ := by
  apply ExtTreeMap.ext_getElem?
  intro b
  rw [ExtTreeMap.getElem?_eq_none fun hmem => ?_, ExtTreeMap.getElem?_empty]
  obtain ⟨a, ha, _⟩ := mem_relabel.mp hmem
  exact ExtTreeMap.not_mem_empty ha

theorem relabel_ofList (entries : List (α × γ)) :
    relabel f g (.ofList entries) = .ofList (entries.map fun entry => (f entry.1, g entry.2)) := by
  have hmany : ∀ m : ExtTreeMap α γ, relabel f g (m.insertMany entries) =
      (relabel f g m).insertMany (entries.map fun entry => (f entry.1, g entry.2)) := by
    intro m
    induction entries generalizing m with
    | nil => rw [List.map_nil, ExtTreeMap.insertMany_nil, ExtTreeMap.insertMany_nil]
    | cons entry rest ih =>
        rw [ExtTreeMap.insertMany_cons, List.map_cons, ExtTreeMap.insertMany_cons, ih, relabel_insert inj]
  rw [ExtTreeMap.ofList_eq_insertMany_empty, ExtTreeMap.ofList_eq_insertMany_empty, hmany, relabel_empty]

omit inj in
/-- The entries of a map that is its own image are images of entries. -/
theorem exists_of_relabel_eq {f : β → β} {g : δ → δ} {m : ExtTreeMap β δ} (inj : Function.Injective f)
    (same : relabel f g m = m) {b : β} {d : δ} (h : m[b]? = some d) : (∃ a, f a = b) ∧ ∃ c, g c = d := by
  rw [← same] at h
  obtain ⟨a, _, rfl⟩ := mem_relabel.mp (ExtTreeMap.mem_iff_isSome_getElem?.mpr (by rw [h]; rfl))
  rw [getElem?_relabel inj, Option.map_eq_some_iff] at h
  obtain ⟨c, _, hc⟩ := h
  exact ⟨⟨a, rfl⟩, c, hc⟩

end Maps

namespace MultiMap

section Keys

variable [Ord γ] {m n : MultiMap α γ} {key other : α}

theorem mem_touch : other ∈ (m.touch key).sets ↔ other = key ∨ other ∈ m.sets := by
  unfold touch
  split
  · rename_i hpresent
    exact ⟨Or.inr, fun h => h.elim (fun heq => heq ▸ hpresent) id⟩
  · rw [ExtTreeMap.mem_insert, LawfulEqOrd.compare_eq_iff_eq, @eq_comm _ key]

theorem mem_touchAll {keys : List α} : other ∈ (m.touchAll keys).sets ↔ other ∈ keys ∨ other ∈ m.sets := by
  induction keys generalizing m with
  | nil => simp [touchAll]
  | cons key rest ih =>
      rw [touchAll, List.foldl_cons]
      refine ih.trans ?_
      rw [mem_touch, List.mem_cons]
      tauto

variable [TransOrd γ]

theorem mem_insert {value : γ} : other ∈ (m.insert key value).sets ↔ other = key ∨ other ∈ m.sets := by
  rw [insert, ExtTreeMap.mem_insert, LawfulEqOrd.compare_eq_iff_eq, @eq_comm _ key]

omit [LawfulEqOrd α] in
theorem mem_sets_of_mem_get {value : γ} (h : value ∈ m.get key) : key ∈ m.sets := by
  rw [ExtTreeMap.mem_iff_isSome_getElem?]
  cases hfound : m.sets[key]? with
  | none => simp [get, get?, hfound] at h
  | some => rfl

/-- Two multimaps are equal if they have the same keys and the same values under each. -/
theorem ext_mem [LawfulEqOrd γ] (keys : ∀ key, key ∈ m.sets ↔ key ∈ n.sets)
    (values : ∀ key value, value ∈ m.get key ↔ value ∈ n.get key) : m = n := by
  have hsets : m.sets = n.sets := by
    apply ExtTreeMap.ext_getElem?
    intro key
    have hget : m.get key = n.get key := ExtTreeSet.ext_mem (values key)
    have hkey := keys key
    rw [ExtTreeMap.mem_iff_isSome_getElem?, ExtTreeMap.mem_iff_isSome_getElem?] at hkey
    unfold get get? at hget
    cases hm : m.sets[key]? <;> cases hn : n.sets[key]? <;> simp_all
  cases m
  cases n
  exact congrArg mk hsets

end Keys

section Images

variable [Ord γ] [TransOrd γ] [Ord δ]

/-- The image of a multimap, by a function of the keys and one of the values. -/
def relabel (f : α → β) (g : γ → δ) (m : MultiMap α γ) : MultiMap β δ := ⟨PredictiveParsing.relabel f (image g) m.sets⟩

variable {f : α → β} {g : γ → δ} {m : MultiMap α γ}

theorem mem_relabel {b : β} : b ∈ (m.relabel f g).sets ↔ ∃ a ∈ m.sets, f a = b := PredictiveParsing.mem_relabel

omit [TransOrd β] [LawfulEqOrd β] [DecidableEq β] in
theorem relabel_congr [LawfulEqOrd γ] {f' : α → β} {g' : γ → δ}
    (keys : ∀ a ∈ m.sets, f a = f' a) (values : ∀ a, ∀ c ∈ m.get a, g c = g' c) :
    m.relabel f g = m.relabel f' g' := by
  refine congrArg mk (PredictiveParsing.relabel_congr fun a set hset => ⟨keys a ?_, image_congr fun c hc => ?_⟩)
  · rw [ExtTreeMap.mem_iff_isSome_getElem?, hset]
    rfl
  · refine values a c ?_
    rwa [get, get?, hset]

variable [LawfulEqOrd γ] [TransOrd δ] [LawfulEqOrd δ] [DecidableEq δ] (inj : Function.Injective f)
include inj

theorem get_relabel (a : α) : (m.relabel f g).get (f a) = image g (m.get a) := by
  unfold get get? relabel
  rw [getElem?_relabel inj]
  cases m.sets[a]? with
  | none => exact image_empty.symm
  | some values => rfl

theorem exists_of_mem_get_relabel {b : β} {d : δ} (h : d ∈ (m.relabel f g).get b) : ∃ a, ∃ c ∈ m.get a, g c = d := by
  obtain ⟨a, _, rfl⟩ := mem_relabel.mp (mem_sets_of_mem_get h)
  rw [get_relabel inj, mem_image] at h
  exact ⟨a, h⟩

/-- A multimap is an image if it has the values of the image, and the keys that it has are images of keys. -/
theorem eq_relabel {m' : MultiMap β δ} (keys : ∀ b, b ∈ m'.sets ↔ ∃ a ∈ m.sets, f a = b)
    (values : ∀ a, m'.get (f a) = image g (m.get a)) : m' = m.relabel f g := by
  refine ext_mem (fun b => (keys b).trans mem_relabel.symm) fun b d => ?_
  by_cases hvalue : ∃ a ∈ m.sets, f a = b
  · obtain ⟨a, _, rfl⟩ := hvalue
    rw [values, get_relabel inj]
  · -- neither has the key
    refine iff_of_false (fun h => hvalue ((keys b).mp (mem_sets_of_mem_get h))) fun h => ?_
    exact hvalue (mem_relabel.mp (mem_sets_of_mem_get h))

end Images

end MultiMap

end PredictiveParsing
