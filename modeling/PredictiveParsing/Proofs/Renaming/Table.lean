import PredictiveParsing.Proofs.Renaming.Follow
import PredictiveParsing.Proofs.Renaming.Support
import PredictiveParsing.Proofs.Table.Registration

/-! # Tables of renamed grammars

Everything that a table is made from is renamed: the analyses find the renamed sets, and a renamed production claims
the renamed words. Only the order of these words is another one, as it goes by the numbers. As the claims of one
production can be registered in any order, and the productions keep theirs, the renamed table is filled just if the
table is. So the numbers do not matter. -/

namespace PredictiveParsing

open Std

namespace Prediction

variable {ρ : Renaming} {found : Prediction}

theorem get_follows (ρ : Renaming) (found : Prediction) (a : Nonterminal) :
    (ρ.prediction found).follows.get (ρ.nonterminal a) = ρ.words (found.follows.get a) :=
  MultiMap.get_relabel ρ.nonterminal_injective a

/-- Renamed symbols generate the renamed word just if the symbols generate the word. -/
theorem generates_rename (complete : Bool) (x : List Symbol) (v : List Terminal) :
    (ρ.prediction found).generates complete (x.map ρ.symbol) (v.map ρ.terminal) = found.generates complete x v := by
  have hall : ∀ x, Nullable.all (ρ.prediction found).nullable (x.map ρ.symbol) = Nullable.all found.nullable x :=
    Nullable.all_rename ρ found.nullable
  induction x generalizing v with
  | nil =>
      cases v with
      | nil => rfl
      | cons => rfl
  | cons symbol rest ih =>
      cases v with
      | nil =>
          rw [List.map_nil, generates, generates, hall]
      | cons t v =>
          cases symbol with
          | terminal s =>
              simp only [List.map_cons, Numbering.symbol, generates, ρ.isEpsilon_terminal, beq_eq_decide,
                ρ.terminal_injective.eq_iff, ih]
              rw [← ih (t :: v), List.map_cons]
          | nonterminal a =>
              have hfirsts : (ρ.prediction found).firsts.get (ρ.nonterminal a) = ρ.words (found.firsts.get a) :=
                Follow.get_firstSets ρ found.firsts a
              have hnullable : (ρ.prediction found).nullable.contains (ρ.nonterminal a) = found.nullable.contains a :=
                contains_image ρ.nonterminal_injective a
              rw [List.map_cons, List.map_cons, Numbering.symbol, generates, generates, hfirsts, hnullable,
                Numbering.words, any_toList_image, ← List.map_cons, ih]
              congr 2
              funext w
              have hprefix : (ρ.word w).isPrefixOf ((t :: v).map ρ.terminal) = w.isPrefixOf (t :: v) :=
                ρ.isPrefixOf_terminals w.terminals (t :: v)
              have hprefix' : ((t :: v).map ρ.terminal).isPrefixOf (ρ.word w).terminals =
                  (t :: v).isPrefixOf w.terminals := ρ.isPrefixOf_terminals (t :: v) w.terminals
              rw [ρ.isEmpty_word, ρ.length_word, List.length_map, hall, ← List.map_drop, ih, hprefix, hprefix']

variable (p : Production)

theorem generated_rename :
    ((ρ.prediction found).generated (ρ.rule p)).Perm ((found.generated p).map ρ.word) := by
  have hfirsts : (ρ.prediction found).firsts.get (ρ.rule p).head = ρ.words (found.firsts.get p.head) :=
    Follow.get_firstSets ρ found.firsts p.head
  rw [generated, hfirsts]
  refine ((toList_image ρ.word_injective).filter _).trans (.of_eq ?_)
  rw [List.filter_map]
  congr 1
  refine List.filter_congr fun w _ => ?_
  show (ρ.prediction found).generates _ (p.symbols.map ρ.symbol) (w.terminals.map ρ.terminal) = _
  rw [generates_rename, ρ.isComplete_word]
  rfl

theorem isReached_rename : (ρ.prediction found).isReached (ρ.rule p) = found.isReached p := by
  have hempty : ((ρ.prediction found).generated (ρ.rule p)).isEmpty = (found.generated p).isEmpty := by
    rw [(generated_rename p).isEmpty_eq, List.isEmpty_map]
  rw [isReached, isReached, hempty, ρ.isEpsilon_rule]

/-- A renamed production claims the renamed words, in some order. -/
theorem claims_rename : ((ρ.prediction found).claims (ρ.rule p)).Perm ((found.claims p).map ρ.word) := by
  have hfollows : ((ρ.prediction found).follows.get (ρ.rule p).head).toList.Perm
      ((found.follows.get p.head).toList.map ρ.word) := by
    rw [show (ρ.rule p).head = ρ.nonterminal p.head from rfl, get_follows]
    exact toList_image ρ.word_injective
  rw [claims, claims, ρ.isEpsilon_rule]
  split
  · exact hfollows
  · refine ((generated_rename p).flatMap_right _).trans ?_
    rw [List.flatMap_map, List.map_flatMap]
    refine List.Perm.flatMap_left _ fun w _ => ?_
    rw [ρ.isEmpty_word]
    split
    · refine (hfollows.map _).trans (.of_eq ?_)
      rw [List.map_map, List.map_map]
      refine List.map_congr_left fun v _ => ?_
      exact ρ.concat_word w v found.k
    · rfl

end Prediction

namespace Table

variable {ρ : Renaming} {found : Prediction} {table : Table}

theorem get?_rename (ρ : Renaming) (table : Table) (a : Nonterminal) (w : Lookahead) :
    (ρ.table table).get? (ρ.nonterminal a) (ρ.word w) = (table.get? a w).map ρ.production :=
  getElem?_relabel ρ.key_injective (TableKey.mk a w)

theorem rename_insert (p : Production) (w : Lookahead) :
    ρ.table { table with entries := table.entries.insert ⟨p.head, w⟩ p.id } =
      { ρ.table table with
        entries := (ρ.table table).entries.insert ⟨(ρ.rule p).head, ρ.word w⟩ (ρ.rule p).id } :=
  congrArg (Table.mk table.k) (relabel_insert ρ.key_injective (TableKey.mk p.head w) p.id)

variable {g g' : Grammar} (h : g.Renames ρ g') (hg : g.WellFormed) (hg' : g'.WellFormed)
include h hg hg'

/-- Renamed claims are registered in a renamed table as the claims are in the table. -/
theorem register_rename (p : Production) (table : Table) (w : Lookahead) :
    register g' (ρ.rule p) (ρ.table table) (ρ.word w) = ρ.tableResult (register g p table w) := by
  have hget : (ρ.table table).get? (ρ.rule p).head (ρ.word w) = (table.get? p.head w).map ρ.production :=
    get?_rename ρ table p.head w
  rw [register, register, hget, ρ.isEpsilon_rule, ← rename_insert]
  cases table.get? p.head w with
  | none => rfl
  | some existing =>
      simp only [Option.map_some, h.isEpsilonId_eq hg hg']
      cases isEpsilonId g existing <;> cases p.isEpsilon <;> rfl

theorem foldlM_register_rename (p : Production) (claims : List Lookahead) (table : Table) :
    (claims.map ρ.word).foldlM (register g' (ρ.rule p)) (ρ.table table) =
      ρ.tableResult (claims.foldlM (register g p) table) := by
  induction claims generalizing table with
  | nil => rfl
  | cons w rest ih =>
      rw [List.map_cons, List.foldlM_cons, List.foldlM_cons, register_rename h hg hg']
      cases register g p table w with
      | error e => rfl
      | ok next => exact ih next

/-- A renamed production can register its claims just if the production can: the words come in another order, but this
does not matter for the words of one production. -/
theorem registerAll_rename_iff (p : Production) (table renamed : Table) :
    registerAll g' (ρ.prediction found) (ρ.table table) (ρ.rule p) = .ok renamed ↔
      ∃ next, registerAll g found table p = .ok next ∧ ρ.table next = renamed := by
  rw [registerAll, registerAll, Prediction.isReached_rename]
  split
  · have hclaims := @Prediction.claims_rename ρ found p
    have horder : ((ρ.prediction found).claims (ρ.rule p)).foldlM (register g' (ρ.rule p)) (ρ.table table) =
          .ok renamed ↔
        ((found.claims p).map ρ.word).foldlM (register g' (ρ.rule p)) (ρ.table table) = .ok renamed :=
      ⟨foldlM_register_of_perm hclaims, foldlM_register_of_perm hclaims.symm⟩
    rw [horder, foldlM_register_rename h hg hg', ρ.tableResult_eq_ok_iff]
  · simp

theorem fill_rename_iff (renamed : Table) :
    fill g' (ρ.prediction found) = .ok renamed ↔ ∃ table, fill g found = .ok table ∧ ρ.table table = renamed := by
  have hempty : ρ.table ⟨found.k, ∅⟩ = ⟨(ρ.prediction found).k, ∅⟩ := congrArg (Table.mk found.k) relabel_empty
  rw [fill, fill, h.productions, ← hempty]
  generalize Table.mk found.k ∅ = start
  induction g.productions generalizing start with
  | nil => simp [pure_eq_ok_iff]
  | cons p rest ih =>
      simp only [List.map_cons, List.foldlM_cons, bind_eq_ok_iff, registerAll_rename_iff h hg hg']
      constructor
      · rintro ⟨_, ⟨next, hnext, rfl⟩, hrest⟩
        obtain ⟨table, htable, rfl⟩ := (ih next).mp hrest
        exact ⟨table, ⟨next, hnext, htable⟩, rfl⟩
      · rintro ⟨table, ⟨next, hnext, htable⟩, rfl⟩
        exact ⟨ρ.table next, ⟨next, hnext, rfl⟩, (ih next).mpr ⟨table, htable, rfl⟩⟩

end Table

namespace Grammar

namespace Renames

variable {ρ : Renaming} {g g' : Grammar} {k : Nat} (h : g.Renames ρ g') (hg : g.WellFormed) (hg' : g'.WellFormed)
include h hg hg'

/-- The analyses of a renamed grammar find what is renamed, or fail with the renamed error. -/
theorem prediction_eq (k : Nat) : g'.prediction k = ρ.result ρ.prediction (g.prediction k) := by
  rw [Grammar.prediction, Grammar.prediction, h.admits_eq hg hg', h.firstSets_eq hg hg', h.nullable_eq]
  cases g.admits k with
  | error e => rfl
  | ok =>
      cases g.firstSets k with
      | error e => rfl
      | ok firsts =>
          show Except.ok (Prediction.mk _ _ _ (g'.followSets k (ρ.firstSets firsts) (ρ.nonterminals g.nullable))) = _
          rw [h.followSets_eq hg hg']
          rfl

theorem table_eq_ok_iff (renamed : Table) :
    g'.table k = .ok renamed ↔ ∃ table, g.table k = .ok table ∧ ρ.table table = renamed := by
  simp only [Grammar.table_eq_ok_iff, h.prediction_eq hg hg', ρ.result_eq_ok_iff]
  constructor
  · rintro ⟨_, ⟨found, hfound, rfl⟩, hfill⟩
    obtain ⟨table, htable, rfl⟩ := (Table.fill_rename_iff h hg hg' renamed).mp hfill
    exact ⟨table, ⟨found, hfound, htable⟩, rfl⟩
  · rintro ⟨table, ⟨found, hfound, htable⟩, rfl⟩
    exact ⟨_, ⟨found, hfound, rfl⟩, (Table.fill_rename_iff h hg hg' _).mpr ⟨table, htable, rfl⟩⟩

end Renames

/-! A renaming that leaves a grammar as it is leaves everything as it is that is found in the grammar. -/

namespace Renames

variable {π : Renaming} {g : Grammar} {k : Nat} {firsts : FirstSets} (h : g.Renames π g) (hg : g.WellFormed)
include h

theorem keeps_nullable : π.nonterminals g.nullable = g.nullable := h.nullable_eq.symm

include hg

theorem keeps_firstSets (found : g.firstSets k = .ok firsts) : π.firstSets firsts = firsts := by
  have hsame := h.firstSets_eq hg hg k
  rw [found] at hsame
  exact (Except.ok.inj hsame).symm

theorem keeps_grammarError {e : GrammarError} (failed : g.firstSets k = .error e) : π.grammarError e = e := by
  have hsame := h.firstSets_eq hg hg k
  rw [failed] at hsame
  exact (Except.error.inj hsame).symm

theorem keeps_followSets (found : g.firstSets k = .ok firsts) :
    π.wordTable (g.followSets k firsts g.nullable) = g.followSets k firsts g.nullable := by
  rw [← h.followSets_eq hg hg, h.keeps_firstSets hg found, h.keeps_nullable]

theorem keeps_table {table : Table} (found : g.table k = .ok table) : π.table table = table := by
  have hsame := (h.table_eq_ok_iff hg hg _).mpr ⟨table, found, rfl⟩
  rw [found] at hsame
  exact (Except.ok.inj hsame).symm

end Renames

/-- Numbers do not matter. If the symbols and productions that a grammar holds are given other numbers, different ones
for different ones, and the order of the productions is kept, the nullable nonterminals, the FIRST sets or the error in
their place, and the FOLLOW sets are the renamed ones. There is a table just if there is one for the grammar, and it is
the renamed one. -/
theorem analyses_of_renames {ν : Numbering} {g g' : Grammar} (constructed : g.Constructed)
    (constructed' : g'.Constructed) (separates : ν.Separates g) (h : g.Renames ν g') (k : Nat) :
    g'.nullable = ν.nonterminals g.nullable ∧
    g'.firstSets k = ν.result ν.firstSets (g.firstSets k) ∧
    (∀ firsts, g.firstSets k = .ok firsts →
      g'.followSets k (ν.firstSets firsts) g'.nullable = ν.wordTable (g.followSets k firsts g.nullable)) ∧
    ((∃ table, g.table k = .ok table) ↔ ∃ table, g'.table k = .ok table) ∧
    ∀ table, g.table k = .ok table → g'.table k = .ok (ν.table table) := by
  have hg := constructed.wellFormed
  have hg' := constructed'.wellFormed
  obtain ⟨ρ, agrees, _⟩ := separates.exists_renaming 0
  have hρ : g.Renames ρ g' := agrees.renames h
  have hnullable : ν.nonterminals g.nullable = ρ.nonterminals g.nullable :=
    agrees.nonterminals_eq fun _ hπ => hπ.keeps_nullable
  have hfirsts : ∀ firsts, g.firstSets k = .ok firsts → ν.firstSets firsts = ρ.firstSets firsts :=
    fun _ found => agrees.firstSets_eq fun _ hπ => hπ.keeps_firstSets hg found
  refine ⟨hρ.nullable_eq.trans hnullable.symm, ?_, fun firsts found => ?_, ⟨?_, ?_⟩, fun table found => ?_⟩
  · rw [hρ.firstSets_eq hg hg' k]
    cases found : g.firstSets k with
    | error e =>
        have herror := agrees.grammarError_eq fun _ hπ => hπ.keeps_grammarError hg found
        exact congrArg Except.error herror.symm
    | ok firsts => exact congrArg Except.ok (hfirsts firsts found).symm
  · have hfollows := agrees.wordTable_eq fun _ hπ => hπ.keeps_followSets hg found
    rw [hfirsts firsts found, hfollows, hρ.nullable_eq, hρ.followSets_eq hg hg']
  · rintro ⟨table, found⟩
    exact ⟨ρ.table table, (hρ.table_eq_ok_iff hg hg' _).mpr ⟨table, found, rfl⟩⟩
  · rintro ⟨renamed, found⟩
    obtain ⟨table, htable, _⟩ := (hρ.table_eq_ok_iff hg hg' renamed).mp found
    exact ⟨table, htable⟩
  · have htable := agrees.table_eq fun _ hπ => hπ.keeps_table hg found
    rw [htable]
    exact (hρ.table_eq_ok_iff hg hg' _).mpr ⟨table, found, rfl⟩

/-- Numbers that exchange the symbols of the nested words, and their first production with the last one. All other
symbols and productions get one number. -/
def exchange : Numbering where
  terminal t := ⟨[0, 1, 3, 2].getD t.id 0⟩
  nonterminal a := ⟨[1, 0].getD a.id 0⟩
  production id := ⟨[2, 1, 0].getD id.id 0⟩

/-- The grammar of the words that hold some terminals 3 and then as many terminals 2. -/
def exchanged : Grammar where
  vocabulary := ⟨4, 2⟩
  start := ⟨1⟩
  arena := #[⟨⟨2⟩, ⟨1⟩, [.terminal ⟨3⟩, .nonterminal ⟨1⟩, .terminal ⟨2⟩]⟩, ⟨⟨1⟩, ⟨1⟩, [.nonterminal ⟨0⟩]⟩,
    ⟨⟨0⟩, ⟨0⟩, [.terminal .epsilon]⟩]
  index := .ofList [((⟨2⟩ : ProductionId), 0), (⟨1⟩, 1), (⟨0⟩, 2)]
  rules := .ofList [((⟨1⟩ : Nonterminal), #[0, 1]), (⟨0⟩, #[2])]

theorem build_exchanged :
    build ⟨4, 2⟩ ⟨1⟩
      [⟨⟨1⟩, [⟨⟨2⟩, [.terminal ⟨3⟩, .nonterminal ⟨1⟩, .terminal ⟨2⟩]⟩, ⟨⟨1⟩, [.nonterminal ⟨0⟩]⟩]⟩,
        ⟨⟨0⟩, [⟨⟨0⟩, []⟩]⟩] = .ok exchanged := by cbv

/-- The table of the nested words with the renamed entries. -/
def exchangedTable : Table where
  k := 1
  entries := .ofList [((⟨⟨1⟩, ⟨[⟨3⟩]⟩⟩ : TableKey), (⟨2⟩ : ProductionId)), (⟨⟨1⟩, ⟨[⟨1⟩]⟩⟩, ⟨1⟩),
    (⟨⟨1⟩, ⟨[⟨2⟩]⟩⟩, ⟨1⟩), (⟨⟨0⟩, ⟨[⟨1⟩]⟩⟩, ⟨0⟩), (⟨⟨0⟩, ⟨[⟨2⟩]⟩⟩, ⟨0⟩)]

theorem analyses_of_exchanged :
    exchange.Separates nested ∧ nested.Renames exchange exchanged ∧
      exchanged.nullable = exchange.nonterminals nested.nullable ∧ exchanged.table 1 = .ok exchangedTable := by
  have hseparates : exchange.Separates nested := ⟨rfl, rfl, by decide, by decide⟩
  have hrenames : nested.Renames exchange exchanged := ⟨by decide, by decide⟩
  obtain ⟨hnullable, _, _, _, htable⟩ :=
    analyses_of_renames constructed_nested (constructed_of_build build_exchanged) hseparates hrenames 1
  have hrenamed : exchange.table nestedTable = exchangedTable := rfl
  refine ⟨hseparates, hrenames, hnullable, ?_⟩
  rw [← hrenamed]
  exact htable nestedTable table_nested

end Grammar

end PredictiveParsing
