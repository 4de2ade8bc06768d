import Mathlib.Data.Finset.Dedup
import Mathlib.Data.Finset.Order
import Mathlib.Logic.Equiv.Defs
import PredictiveParsing.Proofs.Renaming.Grammar

/-! # What a grammar holds

What a grammar does not hold can have any new numbers. A numbering that tells apart what the grammar holds can be
continued to a renaming, and the two rename the grammar alike. They also rename alike whatever is found in the grammar,
as nothing that is found there comes from outside: some renaming leaves the grammar as it is and takes everything else
beyond any given number, and it leaves what is found in the grammar as it is too. -/

namespace PredictiveParsing

open Std

/-- A function that is injective where something holds, with values up to a bound there, can be continued by greater
values to an injective function. -/
theorem exists_injective_extending {α : Type} (number : α ≃ Nat) {f : α → α} {P : α → Prop} [DecidablePred P] {m : Nat}
    (inj : ∀ a b, P a → P b → f a = f b → a = b) (below : ∀ a, P a → number (f a) ≤ m) :
    ∃ f' : α → α, Function.Injective f' ∧ (∀ a, P a → f' a = f a) ∧ ∀ a, ¬P a → m < number (f' a) := by
  have hfresh : ∀ a, number (number.symm (m + 1 + number a)) = m + 1 + number a := fun a => number.apply_symm_apply _
  refine ⟨fun a => if P a then f a else number.symm (m + 1 + number a), fun a b h => ?_, fun a ha => if_pos ha,
    fun a ha => ?_⟩
  · by_cases ha : P a <;> by_cases hb : P b <;> simp only [ha, hb, if_true, if_false] at h
    · exact inj a b ha hb h
    · have hle := below a ha
      rw [h, hfresh] at hle
      omega
    · have hle := below b hb
      rw [← h, hfresh] at hle
      omega
    · exact number.injective (Nat.add_left_cancel (number.symm.injective h))
  · simp only [if_neg ha, hfresh]
    omega

def Symbol.number : Symbol → Nat
  | .terminal t => t.id
  | .nonterminal a => a.id

namespace Grammar

/-- The symbols that a grammar holds, and the reserved terminals. -/
def symbols (g : Grammar) : List Symbol :=
  .terminal .epsilon :: .terminal .endMarker :: .nonterminal g.start ::
    g.productions.flatMap fun p => .nonterminal p.head :: p.symbols

def ids (g : Grammar) : List ProductionId := g.productions.map Production.id

variable {g : Grammar} {p : Production}

theorem start_mem_symbols : .nonterminal g.start ∈ g.symbols :=
  List.mem_cons_of_mem _ (List.mem_cons_of_mem _ List.mem_cons_self)

theorem mem_symbols_of_mem {x : Symbol} (mem : p ∈ g.productions) (hx : x ∈ .nonterminal p.head :: p.symbols) :
    x ∈ g.symbols := by
  have hlater : x ∈ g.productions.flatMap fun p => .nonterminal p.head :: p.symbols :=
    List.mem_flatMap.mpr ⟨p, mem, hx⟩
  simp only [symbols, List.mem_cons, hlater, or_true]

end Grammar

namespace Numbering

/-- A numbering that leaves the reserved terminals as they are and tells apart what a grammar holds. -/
structure Separates (ν : Numbering) (g : Grammar) : Prop where
  terminal_epsilon : ν.terminal .epsilon = .epsilon
  terminal_endMarker : ν.terminal .endMarker = .endMarker
  symbols : ∀ x ∈ g.symbols, ∀ y ∈ g.symbols, ν.symbol x = ν.symbol y → x = y
  ids : ∀ id ∈ g.ids, ∀ other ∈ g.ids, ν.production id = ν.production other → id = other

/-- Two numberings give what a grammar holds the same numbers. -/
structure AgreesOn (ν ν' : Numbering) (g : Grammar) : Prop where
  symbol : ∀ x ∈ g.symbols, ν.symbol x = ν'.symbol x
  production : ∀ id ∈ g.ids, ν.production id = ν'.production id

/-- What a grammar does not hold gets numbers beyond a bound. -/
structure TakesBeyond (ν : Numbering) (g : Grammar) (bound : Nat) : Prop where
  symbol : ∀ x ∉ g.symbols, bound < (ν.symbol x).number
  production : ∀ id ∉ g.ids, bound < (ν.production id).id

variable {ν : Numbering} {ρ : Renaming} {g g' : Grammar}

/-- A numbering that tells apart what a grammar holds is a renaming as far as the grammar goes, and everything else
can get numbers beyond any bound. -/
theorem Separates.exists_renaming (separates : ν.Separates g) (bound : Nat) :
    ∃ ρ : Renaming, ν.AgreesOn ρ g ∧ (ρ : Numbering).TakesBeyond g bound := by
  obtain ⟨m, hm⟩ := (bound :: (g.symbols.map fun x => (ν.symbol x).number) ++
    g.ids.map fun id => (ν.production id).id).toFinset.exists_le
  simp only [List.mem_toFinset, List.cons_append, List.forall_mem_cons, List.forall_mem_append,
    List.forall_mem_map] at hm
  obtain ⟨hbound, hsymbols, hids⟩ := hm
  obtain ⟨terminal, hterminal, tsame, tbeyond⟩ :=
    exists_injective_extending ⟨Terminal.id, Terminal.mk, fun _ => rfl, fun _ => rfl⟩
      (fun s t hs ht h => Symbol.terminal.inj (separates.symbols (.terminal s) hs (.terminal t) ht
        (congrArg Symbol.terminal h)))
      (fun t => hsymbols (.terminal t))
  obtain ⟨nonterminal, hnonterminal, asame, abeyond⟩ :=
    exists_injective_extending ⟨Nonterminal.id, Nonterminal.mk, fun _ => rfl, fun _ => rfl⟩
      (fun a b ha hb h => Symbol.nonterminal.inj
        (separates.symbols (.nonterminal a) ha (.nonterminal b) hb (congrArg Symbol.nonterminal h)))
      (fun a => hsymbols (.nonterminal a))
  obtain ⟨production, hproduction, isame, ibeyond⟩ :=
    exists_injective_extending ⟨ProductionId.id, ProductionId.mk, fun _ => rfl, fun _ => rfl⟩
      (fun i j hi hj => separates.ids i hi j hj) hids
  let ρ : Renaming := ⟨⟨terminal, nonterminal, production⟩, hterminal, hnonterminal, hproduction,
    (tsame _ List.mem_cons_self).trans separates.terminal_epsilon,
    (tsame _ (List.mem_cons_of_mem _ List.mem_cons_self)).trans separates.terminal_endMarker⟩
  refine ⟨ρ, ⟨fun x hx => ?_, fun id hid => (isame id hid).symm⟩, ⟨fun x hx => ?_, fun id hid => ?_⟩⟩
  · cases x with
    | terminal t => exact congrArg Symbol.terminal (tsame t hx).symm
    | nonterminal a => exact congrArg Symbol.nonterminal (asame a hx).symm
  · refine Nat.lt_of_le_of_lt hbound ?_
    cases x with
    | terminal t => exact tbeyond t hx
    | nonterminal a => exact abeyond a hx
  · exact Nat.lt_of_le_of_lt hbound (ibeyond id hid)

theorem AgreesOn.rule_eq {p : Production} (agrees : ν.AgreesOn ρ g) (mem : p ∈ g.productions) : ν.rule p = ρ.rule p := by
  have hsame := fun x hx => agrees.symbol x (Grammar.mem_symbols_of_mem mem hx)
  have hhead := Symbol.nonterminal.inj (hsame _ List.mem_cons_self)
  have hsymbols := List.map_congr_left fun x hx => hsame x (List.mem_cons_of_mem _ hx)
  rw [rule, rule, agrees.production _ (List.mem_map_of_mem mem), hhead, hsymbols]

theorem AgreesOn.renames (agrees : ν.AgreesOn ρ g) (h : g.Renames ν g') : g.Renames ρ g' where
  start := h.start.trans (Symbol.nonterminal.inj (agrees.symbol _ Grammar.start_mem_symbols))
  productions := h.productions.trans (List.map_congr_left fun _ => agrees.rule_eq)

/-- The numbers as they are. -/
def identity : Numbering := ⟨id, id, id⟩

theorem symbol_identity (x : Symbol) : identity.symbol x = x := by
  cases x <;> rfl

theorem separates_identity (g : Grammar) : identity.Separates g where
  terminal_epsilon := rfl
  terminal_endMarker := rfl
  symbols x _ y _ h := by rwa [symbol_identity, symbol_identity] at h
  ids _ _ _ _ h := h

theorem renames_identity (g : Grammar) : g.Renames identity g where
  start := rfl
  productions := by
    have hrule : identity.rule = id := by
      funext p
      rw [rule, funext symbol_identity, List.map_id']
      rfl
    rw [hrule, List.map_id]

/-- Some renaming leaves a grammar as it is and takes everything else beyond a bound. -/
theorem exists_renames_self (g : Grammar) (bound : Nat) :
    ∃ π : Renaming, g.Renames π g ∧ identity.AgreesOn π g ∧ (π : Numbering).TakesBeyond g bound := by
  obtain ⟨π, agrees, beyond⟩ := (separates_identity g).exists_renaming bound
  exact ⟨π, agrees.renames (renames_identity g), agrees, beyond⟩

/-- If something is renamed to a symbol by every renaming that leaves a grammar as it is, the grammar holds the symbol:
one of them takes what the grammar does not hold beyond the number of the symbol. -/
theorem mem_symbols_of_range {x : Symbol} (range : ∀ π : Renaming, g.Renames π g → ∃ y, π.symbol y = x) :
    x ∈ g.symbols := by
  obtain ⟨π, hπ, agrees, beyond⟩ := exists_renames_self g x.number
  obtain ⟨y, hy⟩ := range π hπ
  by_cases hmem : y ∈ g.symbols
  · rwa [← hy, ← agrees.symbol y hmem, symbol_identity]
  · have hlt := beyond.symbol y hmem
    rw [hy] at hlt
    exact absurd hlt (Nat.lt_irrefl _)

theorem mem_ids_of_range {id : ProductionId} (range : ∀ π : Renaming, g.Renames π g → ∃ other, π.production other = id) :
    id ∈ g.ids := by
  obtain ⟨π, hπ, agrees, beyond⟩ := exists_renames_self g id.id
  obtain ⟨other, hother⟩ := range π hπ
  by_cases hmem : other ∈ g.ids
  · rwa [← hother, ← agrees.production other hmem]
  · have hlt := beyond.production other hmem
    rw [hother] at hlt
    exact absurd hlt (Nat.lt_irrefl _)

namespace AgreesOn

variable (agrees : ν.AgreesOn ρ g)
include agrees

/-! What every renaming that leaves the grammar as it is leaves as it is, agreeing numberings rename alike. -/

theorem terminal_eq {t : Terminal} (range : ∀ π : Renaming, g.Renames π g → ∃ s, π.terminal s = t) :
    ν.terminal t = ρ.terminal t := by
  refine Symbol.terminal.inj (agrees.symbol (.terminal t) (mem_symbols_of_range fun π hπ => ?_))
  obtain ⟨s, rfl⟩ := range π hπ
  exact ⟨.terminal s, rfl⟩

theorem nonterminal_eq {a : Nonterminal} (range : ∀ π : Renaming, g.Renames π g → ∃ b, π.nonterminal b = a) :
    ν.nonterminal a = ρ.nonterminal a := by
  refine Symbol.nonterminal.inj (agrees.symbol (.nonterminal a) (mem_symbols_of_range fun π hπ => ?_))
  obtain ⟨b, rfl⟩ := range π hπ
  exact ⟨.nonterminal b, rfl⟩

theorem production_eq {id : ProductionId} (range : ∀ π : Renaming, g.Renames π g → ∃ other, π.production other = id) :
    ν.production id = ρ.production id := agrees.production id (mem_ids_of_range range)

theorem word_eq {w : Lookahead} (range : ∀ π : Renaming, g.Renames π g → ∃ v, π.word v = w) : ν.word w = ρ.word w := by
  refine congrArg Lookahead.mk (List.map_congr_left fun t ht => agrees.terminal_eq fun π hπ => ?_)
  obtain ⟨v, rfl⟩ := range π hπ
  obtain ⟨s, _, rfl⟩ := List.mem_map.mp ht
  exact ⟨s, rfl⟩

theorem key_eq {key : TableKey} (range : ∀ π : Renaming, g.Renames π g → ∃ other, π.key other = key) :
    ν.key key = ρ.key key := by
  have hnonterminal : ν.nonterminal key.nonterminal = ρ.nonterminal key.nonterminal := by
    refine agrees.nonterminal_eq fun π hπ => ?_
    obtain ⟨other, rfl⟩ := range π hπ
    exact ⟨other.nonterminal, rfl⟩
  have hword : ν.word key.word = ρ.word key.word := by
    refine agrees.word_eq fun π hπ => ?_
    obtain ⟨other, rfl⟩ := range π hπ
    exact ⟨other.word, rfl⟩
  exact congrArg₂ TableKey.mk hnonterminal hword

theorem grammarError_eq {e : GrammarError} (kept : ∀ π : Renaming, g.Renames π g → π.grammarError e = e) :
    ν.grammarError e = ρ.grammarError e := by
  cases e with
  | invalidSymbol x terminals nonterminals =>
      have hx : x ∈ g.symbols := mem_symbols_of_range fun π hπ => ⟨x, (GrammarError.invalidSymbol.inj (kept π hπ)).1⟩
      exact congrArg (GrammarError.invalidSymbol · terminals nonterminals) (agrees.symbol x hx)
  | malformedProduction id reason =>
      refine congrArg (GrammarError.malformedProduction · reason) (agrees.production_eq fun π hπ => ?_)
      exact ⟨id, (GrammarError.malformedProduction.inj (kept π hπ)).1⟩
  | duplicateProduction id =>
      refine congrArg GrammarError.duplicateProduction (agrees.production_eq fun π hπ => ?_)
      exact ⟨id, GrammarError.duplicateProduction.inj (kept π hπ)⟩
  | undefinedNonterminal a =>
      refine congrArg GrammarError.undefinedNonterminal (agrees.nonterminal_eq fun π hπ => ?_)
      exact ⟨a, GrammarError.undefinedNonterminal.inj (kept π hπ)⟩
  | leftRecursion a =>
      refine congrArg GrammarError.leftRecursion (agrees.nonterminal_eq fun π hπ => ?_)
      exact ⟨a, GrammarError.leftRecursion.inj (kept π hπ)⟩
  | invalidLookahead k => rfl

theorem nonterminals_eq {known : ExtTreeSet Nonterminal}
    (kept : ∀ π : Renaming, g.Renames π g → π.nonterminals known = known) :
    ν.nonterminals known = ρ.nonterminals known := by
  refine image_congr fun a ha => agrees.nonterminal_eq fun π hπ => ?_
  rw [← kept π hπ] at ha
  obtain ⟨b, _, hb⟩ := mem_image.mp ha
  exact ⟨b, hb⟩

theorem wordTable_eq {table : LookaheadTable}
    (kept : ∀ π : Renaming, g.Renames π g → π.wordTable table = table) :
    ν.wordTable table = ρ.wordTable table := by
  refine MultiMap.relabel_congr (fun a ha => agrees.nonterminal_eq fun π hπ => ?_)
    fun a w hw => agrees.word_eq fun π hπ => ?_
  · rw [← kept π hπ] at ha
    obtain ⟨b, _, hb⟩ := MultiMap.mem_relabel.mp ha
    exact ⟨b, hb⟩
  · rw [← kept π hπ] at hw
    obtain ⟨_, v, _, hv⟩ := MultiMap.exists_of_mem_get_relabel π.nonterminal_injective hw
    exact ⟨v, hv⟩

theorem firstSets_eq {firsts : FirstSets} (kept : ∀ π : Renaming, g.Renames π g → π.firstSets firsts = firsts) :
    ν.firstSets firsts = ρ.firstSets firsts := by
  have htable : ν.wordTable firsts.table = ρ.wordTable firsts.table :=
    agrees.wordTable_eq fun π hπ => congrArg FirstSets.table (kept π hπ)
  have hwords : relabel ν.production ν.word firsts.words = relabel ρ.production ρ.word firsts.words := by
    refine relabel_congr fun id w hw => ?_
    have hentry := fun π hπ => exists_of_relabel_eq π.production_injective (congrArg FirstSets.words (kept π hπ)) hw
    exact ⟨agrees.production_eq fun π hπ => (hentry π hπ).1, agrees.word_eq fun π hπ => (hentry π hπ).2⟩
  exact congrArg₂ FirstSets.mk htable hwords

theorem table_eq {table : Table} (kept : ∀ π : Renaming, g.Renames π g → π.table table = table) :
    ν.table table = ρ.table table := by
  refine congrArg (Table.mk table.k) (relabel_congr fun key id hid => ?_)
  have hentry := fun π hπ => exists_of_relabel_eq π.key_injective (congrArg Table.entries (kept π hπ)) hid
  exact ⟨agrees.key_eq fun π hπ => (hentry π hπ).1, agrees.production_eq fun π hπ => (hentry π hπ).2⟩

end AgreesOn

end Numbering

end PredictiveParsing
