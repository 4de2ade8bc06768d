import PredictiveParsing.Proofs.First.Reading

/-! # FIRST sets

The FIRST sets exist if every production has a word. The set of a nonterminal then holds the words of its
alternatives and nothing else, and each production has its own word on record. -/

namespace PredictiveParsing

open Std

namespace FirstSets

theorem mem_get_foldl_insert {words : List (Production × Lookahead)} {table : LookaheadTable} {a : Nonterminal}
    {w : Lookahead} :
    w ∈ (words.foldl (fun table (p, w) => table.insert p.head w) table).get a ↔
      (∃ p, (p, w) ∈ words ∧ p.head = a) ∨ w ∈ table.get a := by
  induction words generalizing table with
  | nil => simp
  | cons entry rest ih =>
      rw [List.foldl_cons, ih, MultiMap.mem_get_insert]
      constructor
      · rintro (⟨p, hp, hhead⟩ | ⟨rfl, rfl⟩ | htable)
        · exact Or.inl ⟨p, List.mem_cons_of_mem entry hp, hhead⟩
        · exact Or.inl ⟨entry.1, List.mem_cons_self, rfl⟩
        · exact Or.inr htable
      · rintro (⟨p, hp, hhead⟩ | htable)
        · rcases List.mem_cons.mp hp with rfl | hp
          · exact Or.inr (Or.inl ⟨hhead.symm, rfl⟩)
          · exact Or.inl ⟨p, hp, hhead⟩
        · exact Or.inr (Or.inr htable)

theorem mem_get_ofWords {heads : List Nonterminal} {words : List (Production × Lookahead)} {a : Nonterminal}
    {w : Lookahead} : w ∈ (ofWords heads words).get a ↔ ∃ p, (p, w) ∈ words ∧ p.head = a := by
  rw [FirstSets.get, ofWords, mem_get_foldl_insert, MultiMap.get_touchAll, MultiMap.get_empty]
  simp

theorem word?_ofWords {heads : List Nonterminal} {words : List (Production × Lookahead)} {p : Production}
    {w : Lookahead} (distinct : words.Pairwise fun x y => x.1.id ≠ y.1.id) (mem : (p, w) ∈ words) :
    (ofWords heads words).word? p.id = some w := by
  rw [word?, ofWords]
  apply ExtTreeMap.getElem?_ofList_of_mem ReflCmp.compare_self
  · rw [List.pairwise_map]
    exact distinct.imp fun hne => by rwa [LawfulEqOrd.compare_eq_iff_eq]
  · exact List.mem_map.mpr ⟨(p, w), mem, rfl⟩

end FirstSets

namespace Grammar

variable {g : Grammar} {k : Nat} {firsts : FirstSets}

/-- The words from which the FIRST sets are made are those of the productions, in order. -/
theorem exists_words_of_firstSets (h : g.firstSets k = .ok firsts) :
    ∃ words, firsts = .ofWords g.heads words ∧ words.map Prod.fst = g.productions ∧
      ∀ entry ∈ words, First.ofProduction g k entry.1 = .ok entry.2 := by
  rw [firstSets, bind_eq_ok_iff] at h
  obtain ⟨words, hwords, h⟩ := h
  refine ⟨words, (pure_eq_ok_iff.mp h).symm, ?_⟩
  rw [mapM_eq_ok_iff] at hwords
  generalize g.productions = ps at hwords ⊢
  clear h
  induction hwords with
  | nil => exact ⟨rfl, by simp⟩
  | cons hentry _ ih =>
      obtain ⟨w, hw, hpair⟩ := bind_eq_ok_iff.mp hentry
      obtain rfl := pure_eq_ok_iff.mp hpair
      obtain ⟨hfirst, hall⟩ := ih
      exact ⟨congrArg _ hfirst, List.forall_mem_cons.mpr ⟨hw, hall⟩⟩

theorem exists_ofProduction_of_firstSets (h : g.firstSets k = .ok firsts) {p : Production}
    (mem : p ∈ g.productions) : ∃ w, First.ofProduction g k p = .ok w := by
  obtain ⟨words, _, hfirst, hall⟩ := exists_words_of_firstSets h
  rw [← hfirst] at mem
  obtain ⟨entry, hentry, rfl⟩ := List.mem_map.mp mem
  exact ⟨entry.2, hall entry hentry⟩

theorem mem_words_iff {words : List (Production × Lookahead)} (first : words.map Prod.fst = g.productions)
    (all : ∀ entry ∈ words, First.ofProduction g k entry.1 = .ok entry.2) {p : Production} {w : Lookahead} :
    (p, w) ∈ words ↔ p ∈ g.productions ∧ First.ofProduction g k p = .ok w := by
  rw [← first, List.mem_map]
  constructor
  · intro h
    exact ⟨⟨(p, w), h, rfl⟩, all (p, w) h⟩
  · rintro ⟨⟨entry, hentry, rfl⟩, hw⟩
    have hword := all entry hentry
    rw [hw] at hword
    cases hword
    exact hentry

/-- The FIRST set of a nonterminal holds the words of its alternatives. -/
theorem mem_get_firstSets (h : g.firstSets k = .ok firsts) {a : Nonterminal} {w : Lookahead} :
    w ∈ firsts.get a ↔ ∃ p ∈ g.productions, p.head = a ∧ First.ofProduction g k p = .ok w := by
  obtain ⟨words, rfl, hfirst, hall⟩ := exists_words_of_firstSets h
  rw [FirstSets.mem_get_ofWords]
  refine exists_congr fun p => ?_
  rw [mem_words_iff hfirst hall, and_assoc, @and_comm (p.head = a)]

theorem word?_firstSets (hg : g.WellFormed) (h : g.firstSets k = .ok firsts) {p : Production}
    (mem : p ∈ g.productions) {w : Lookahead} (hw : First.ofProduction g k p = .ok w) :
    firsts.word? p.id = some w := by
  obtain ⟨words, rfl, hfirst, hall⟩ := exists_words_of_firstSets h
  refine FirstSets.word?_ofWords ?_ ((mem_words_iff hfirst hall).mpr ⟨mem, hw⟩)
  have hpairwise := hg.pairwise_id_ne
  rw [← hfirst, List.pairwise_map] at hpairwise
  exact hpairwise

/-- A word on record is the word of a production. -/
theorem exists_of_word? (hg : g.WellFormed) (h : g.firstSets k = .ok firsts) {id : ProductionId} {w : Lookahead}
    (recorded : firsts.word? id = some w) : ∃ p ∈ g.productions, p.id = id ∧ First.ofProduction g k p = .ok w := by
  obtain ⟨words, hfirsts, hfirst, hall⟩ := exists_words_of_firstSets h
  have hkey : id ∈ firsts.words := ExtTreeMap.mem_iff_isSome_getElem?.mpr (Option.isSome_of_eq_some recorded)
  rw [hfirsts, FirstSets.ofWords, ExtTreeMap.mem_ofList, List.contains_iff_mem, List.map_map, List.mem_map] at hkey
  obtain ⟨⟨p, v⟩, hentry, rfl⟩ := hkey
  obtain ⟨mem, hv⟩ := (mem_words_iff hfirst hall).mp hentry
  have hword : firsts.word? p.id = some v := word?_firstSets hg h mem hv
  obtain rfl : v = w := Option.some.inj (hword.symm.trans recorded)
  exact ⟨p, mem, rfl, hv⟩

end Grammar

end PredictiveParsing
