import Mathlib.Data.List.Nodup
import Mathlib.Data.List.Perm.Lattice
import PredictiveParsing.Proofs.Grammar.Invariant

/-! # Sessions

A grammar is built by calls that can fail: productions are made and extended outside of the grammars, added to them, and
the grammars are copied. A session holds all grammars and productions of a sequence of such calls. Productions are
extended and grammars are changed in place, so that a call that fails could leave something behind; none does. The index
and the rules of every grammar agree with its productions after all calls, whatever has failed before, and a production
that the grammars of one family have made stays inside their vocabulary. -/

namespace PredictiveParsing

open Std

section

variable {α : Type} {l l' : List α} {i : Nat} {a : α} {P : α → Prop}

theorem forall_mem_concat (h : ∀ x ∈ l, P x) (ha : P a) : ∀ x ∈ l ++ [a], P x :=
  List.forall_mem_append.mpr ⟨h, List.forall_mem_singleton.mpr ha⟩

theorem forall_mem_set (h : ∀ x ∈ l, P x) (ha : P a) (i : Nat) : ∀ x ∈ l.set i a, P x := by
  intro x hx
  rcases List.mem_or_eq_of_mem_set hx with hx | rfl
  · exact h x hx
  · exact ha

theorem getElem?_append_of_some (h : l[i]? = some a) : (l ++ l')[i]? = some a := by
  rw [List.getElem?_append_left (List.getElem?_eq_some_iff.mp h).1, h]

theorem set_of_getElem? (h : l[i]? = some a) : l.set i a = l := by
  obtain ⟨hi, rfl⟩ := List.getElem?_eq_some_iff.mp h
  exact List.set_getElem_self hi

end

/-- Work in place that can fail: something is left of the state in either case. -/
abbrev InPlace (σ : Type) : Type → Type := ExceptT GrammarError (StateM σ)

namespace InPlace

variable {σ α β : Type}

/-- What comes of work in place: its result, and what it leaves. -/
def on (work : InPlace σ α) (s : σ) : Except GrammarError α × σ := work.run.run s

/-- Work in place that replaces the state if a computation of the next state succeeds, and leaves it alone if not. -/
def replaced (next : Except GrammarError σ) (s : σ) : Except GrammarError Unit × σ :=
  match next with
  | .ok s' => (.ok (), s')
  | .error e => (.error e, s)

@[simp] theorem on_throw_bind (e : GrammarError) (f : α → InPlace σ β) (s : σ) :
    (throw e >>= f).on s = (.error e, s) := rfl

@[simp] theorem on_get_bind (f : σ → InPlace σ α) (s : σ) : (get >>= f).on s = (f s).on s := rfl

@[simp] theorem on_modify (f : σ → σ) (s : σ) : (modify f : InPlace σ Unit).on s = (.ok (), f s) := rfl

@[simp] theorem on_modify_bind (f : σ → σ) (g : Unit → InPlace σ α) (s : σ) :
    ((modify f : InPlace σ Unit) >>= g).on s = (g ()).on (f s) := rfl

@[simp] theorem on_ofExcept_bind (x : Except GrammarError β) (f : β → InPlace σ α) (s : σ) :
    (MonadExcept.ofExcept x >>= f).on s = match x with
      | .ok b => (f b).on s
      | .error e => (.error e, s) := by
  cases x <;> rfl

@[simp] theorem on_ite {c : Prop} [Decidable c] (work other : InPlace σ α) (s : σ) :
    (if c then work else other).on s = if c then work.on s else other.on s := by
  split <;> rfl

end InPlace

namespace Production

variable {v : Vocabulary} {symbol : Symbol} {p q : Production}

/-- Extends a production in place. -/
def append (v : Vocabulary) (symbol : Symbol) : InPlace Production Unit := do
  let symbol ← MonadExcept.ofExcept (v.check symbol)
  let p ← get
  if p.isEpsilon then
    throw (.malformedProduction p.id .extendsEpsilon)
  if symbol.isEpsilon then
    throw (.malformedProduction p.id .epsilonNotAlone)
  modify fun p => { p with symbols := p.symbols ++ [symbol] }

/-- Extension in place leaves the extended production, or the production as it was. -/
theorem append_on (v : Vocabulary) (symbol : Symbol) (p : Production) :
    (append v symbol).on p = InPlace.replaced (p.extend v symbol) p := by
  unfold append extend
  simp only [InPlace.on_ofExcept_bind, InPlace.on_get_bind, InPlace.on_ite, InPlace.on_throw_bind, InPlace.on_modify]
  cases v.check symbol with
  | error e => rfl
  | ok symbol =>
      dsimp only [bind, Except.bind]
      split
      · rfl
      · split <;> rfl

/-- The head and all symbols belong to a vocabulary. -/
def Inside (v : Vocabulary) (p : Production) : Prop :=
  v.contains (.nonterminal p.head) = true ∧ ∀ symbol ∈ p.symbols, v.contains symbol = true

theorem inside_of_begin {id : ProductionId} {head : Nonterminal} {first : Symbol}
    (h : Production.begin v id head first = .ok p) : p.Inside v := by
  simp only [Production.begin, bind_eq_ok_iff, pure_eq_ok_iff, Vocabulary.check_eq_ok_iff] at h
  obtain ⟨_, ⟨hhead, _⟩, _, ⟨hfirst, rfl⟩, rfl⟩ := h
  exact ⟨hhead, List.forall_mem_singleton.mpr hfirst⟩

theorem Inside.extend (hp : p.Inside v) (h : p.extend v symbol = .ok q) : q.Inside v := by
  simp only [Production.extend, bind_eq_ok_iff, Vocabulary.check_eq_ok_iff] at h
  obtain ⟨_, ⟨hsymbol, rfl⟩, h⟩ := h
  split at h
  · cases h
  split at h
  · cases h
  cases h
  exact ⟨hp.1, forall_mem_concat hp.2 hsymbol⟩

end Production

namespace Grammar

variable {g : Grammar}

/-- Adds a production behind the alternatives of its head in place: to the index, to the rules, and to the productions. -/
def add (head : Nonterminal) (p : Production) : InPlace Grammar Unit := do
  if p.head ≠ head then
    throw (.malformedProduction p.id .headMismatch)
  let place := (← get).arena.size
  if p.id ∈ (← get).index then
    throw (.duplicateProduction p.id)
  modify fun g => { g with index := g.index.insert p.id place }
  modify fun g => { g with rules := g.rules.insert head ((g.rules[head]?.getD #[]).push place) }
  modify fun g => { g with arena := g.arena.push p }

/-- Adding in place leaves the grammar with the production, or the grammar as it was. -/
theorem add_on (head : Nonterminal) (p : Production) (g : Grammar) :
    (add head p).on g = InPlace.replaced (g.insert head p) g := by
  unfold add insert
  simp only [InPlace.on_ite, InPlace.on_throw_bind, InPlace.on_get_bind, InPlace.on_modify_bind, InPlace.on_modify]
  split
  · rfl
  · split <;> rfl

/-- The index and the rules of a grammar say the same as its productions. -/
structure Coherent (g : Grammar) : Prop where
  indexed : ∀ (id : ProductionId) (i : Nat), g.index[id]? = some i ↔ ∃ p : Production, g.arena[i]? = some p ∧ p.id = id
  distinct : (g.productions.map Production.id).Nodup
  nonempty : ∀ (a : Nonterminal) (places : Array Nat), g.rules[a]? = some places → places ≠ #[]
  increasing : ∀ (a : Nonterminal) (places : Array Nat), g.rules[a]? = some places → places.toList.Pairwise (· < ·)
  headed : ∀ (a : Nonterminal) (places : Array Nat), g.rules[a]? = some places →
    ∀ i ∈ places, ∃ p : Production, g.arena[i]? = some p ∧ p.head = a
  partitioned : (g.rules.toList.flatMap fun entry => entry.2.toList).Perm (List.range g.arena.size)
  get : ∀ id p, g.get? id = some p ↔ p ∈ g.productions ∧ p.id = id
  alternatives : ∀ a, g.alternatives a = g.productions.filter (·.head = a)
  wellFormed : ∀ p ∈ g.productions, p.WellFormed

namespace WellFormed

theorem eq_places (hg : g.WellFormed) {a : Nonterminal} {places : Array Nat} (h : g.rules[a]? = some places) :
    places = (g.places a).toArray ∧ g.places a ≠ [] := by
  rw [hg.grouped] at h
  split at h
  · cases h
  · rename_i hne
    exact ⟨(Option.some.inj h).symm, hne⟩

theorem mem_rules_iff (hg : g.WellFormed) {a : Nonterminal} {places : Array Nat} (h : g.rules[a]? = some places)
    {i : Nat} : i ∈ places.toList ↔ ∃ p : Production, g.arena[i]? = some p ∧ p.head = a := by
  rw [(hg.eq_places h).1, ← mem_places_iff]

theorem pairwise_rules (hg : g.WellFormed) {a : Nonterminal} {places : Array Nat} (h : g.rules[a]? = some places) :
    places.toList.Pairwise (· < ·) := by
  rw [(hg.eq_places h).1]
  exact List.pairwise_lt_range.filter _

/-- Every place is in the list of exactly one head. -/
theorem perm_range (hg : g.WellFormed) :
    (g.rules.toList.flatMap fun entry => entry.2.toList).Perm (List.range g.arena.size) := by
  have hfound : ∀ entry ∈ g.rules.toList, g.rules[entry.1]? = some entry.2 :=
    fun entry hentry => ExtTreeMap.mem_toList_iff_getElem?_eq_some.mp hentry
  have hnodup : (g.rules.toList.flatMap fun entry => entry.2.toList).Nodup := by
    rw [List.nodup_flatMap]
    refine ⟨fun entry hentry => (hg.pairwise_rules (hfound entry hentry)).imp Nat.ne_of_lt, ?_⟩
    refine ExtTreeMap.distinct_keys_toList.imp_of_mem fun {x y} hx hy hkeys i hi hi' => ?_
    obtain ⟨p, hp, hhead⟩ := (hg.mem_rules_iff (hfound x hx)).mp hi
    obtain ⟨q, hq, hhead'⟩ := (hg.mem_rules_iff (hfound y hy)).mp hi'
    rw [hp, Option.some.injEq] at hq
    rw [← hhead, ← hhead', hq] at hkeys
    exact hkeys ReflCmp.compare_self
  rw [List.perm_ext_iff_of_nodup hnodup List.nodup_range]
  intro i
  rw [List.mem_flatMap, List.mem_range]
  constructor
  · rintro ⟨entry, hentry, hi⟩
    obtain ⟨p, hp, _⟩ := (hg.mem_rules_iff (hfound entry hentry)).mp hi
    exact (Array.getElem?_eq_some_iff.mp hp).1
  · intro hi
    obtain ⟨p, hp⟩ : ∃ p, g.arena[i]? = some p := ⟨_, Array.getElem?_eq_getElem hi⟩
    have hplace : i ∈ g.places p.head := mem_places_iff.mpr ⟨p, hp, rfl⟩
    have hrules : g.rules[p.head]? = some (g.places p.head).toArray := by
      rw [hg.grouped, if_neg (List.ne_nil_of_mem hplace)]
    exact ⟨_, ExtTreeMap.mem_toList_iff_getElem?_eq_some.mpr hrules, hplace⟩

theorem coherent (hg : g.WellFormed) : g.Coherent where
  indexed := hg.indexed
  distinct := List.pairwise_map.mpr hg.pairwise_id_ne
  nonempty a places h := by
    obtain ⟨rfl, hne⟩ := hg.eq_places h
    simpa using hne
  increasing _ _ h := hg.pairwise_rules h
  headed _ _ h i hi := (hg.mem_rules_iff h).mp (Array.mem_toList_iff.mpr hi)
  partitioned := hg.perm_range
  get _ _ := hg.get?_eq_some_iff
  alternatives := hg.alternatives_eq_filter
  wellFormed := hg.wellFormed

end WellFormed

end Grammar

/-- A production of a session. It goes back to a family if only grammars of this family have made and extended it. -/
structure Draft where
  production : Production
  origin? : Option Nat

/-- A grammar of a session, with what has been added to it. Copies of a grammar belong to its family. -/
structure Member where
  family : Nat
  grammar : Grammar
  added : List Draft

/-- The vocabularies of the families that have been started, the grammars, and the productions outside of them. -/
structure Session where
  vocabularies : List Vocabulary
  members : List Member
  drafts : List Draft

/-- A call, with the places of the grammar and of the production that it works on. -/
inductive Call where
  | start (v : Vocabulary) (start : Nonterminal)
  | begin (member : Nat) (id : ProductionId) (head : Nonterminal) (first : Symbol)
  | append (member draft : Nat) (symbol : Symbol)
  | add (member : Nat) (head : Nonterminal) (draft : Nat)
  | copy (member : Nat)

namespace Session

def empty : Session := ⟨[], [], []⟩

/-- The result of a call and what it leaves. A call that works on nothing does nothing. -/
def step (s : Session) : Call → Except GrammarError Unit × Session
  | .start v start =>
    match Grammar.ofStart v start with
    | .error e => (.error e, s)
    | .ok g => (.ok (), { s with
        vocabularies := s.vocabularies ++ [v]
        members := s.members ++ [⟨s.vocabularies.length, g, []⟩] })
  | .begin i id head first =>
    match s.members[i]? with
    | none => (.ok (), s)
    | some m =>
      match Production.begin m.grammar.vocabulary id head first with
      | .error e => (.error e, s)
      | .ok p => (.ok (), { s with drafts := s.drafts ++ [⟨p, some m.family⟩] })
  | .append i j symbol =>
    match s.members[i]?, s.drafts[j]? with
    | some m, some d =>
      match (Production.append m.grammar.vocabulary symbol).on d.production with
      | (.error e, p) => (.error e, { s with drafts := s.drafts.set j ⟨p, d.origin?⟩ })
      | (.ok (), p) => (.ok (), { s with
          drafts := s.drafts.set j ⟨p, d.origin?.filter (· = m.family)⟩ })
    | _, _ => (.ok (), s)
  | .add i head j =>
    match s.members[i]?, s.drafts[j]? with
    | some m, some d =>
      match (Grammar.add head d.production).on m.grammar with
      | (.error e, g) => (.error e, { s with members := s.members.set i ⟨m.family, g, m.added⟩ })
      | (.ok (), g) => (.ok (), { s with members := s.members.set i ⟨m.family, g, m.added ++ [d]⟩ })
    | _, _ => (.ok (), s)
  | .copy i =>
    match s.members[i]? with
    | none => (.ok (), s)
    | some m => (.ok (), { s with members := s.members ++ [m] })

/-- What a sequence of calls leaves, whether they fail or not. -/
def after (calls : List Call) : Session := calls.foldl (fun s call => (s.step call).2) empty

/-- What a call that succeeds does. -/
inductive Change (s : Session) : Session → Prop where
  | idle : Change s s
  | started {v : Vocabulary} {start : Nonterminal} {g : Grammar} (started : Grammar.ofStart v start = .ok g) :
      Change s { s with
        vocabularies := s.vocabularies ++ [v]
        members := s.members ++ [⟨s.vocabularies.length, g, []⟩] }
  | begun {m : Member} {id : ProductionId} {head : Nonterminal} {first : Symbol} {p : Production} (hm : m ∈ s.members)
      (begun : Production.begin m.grammar.vocabulary id head first = .ok p) :
      Change s { s with drafts := s.drafts ++ [⟨p, some m.family⟩] }
  | extended {m : Member} {j : Nat} {d : Draft} {symbol : Symbol} {p : Production} (hm : m ∈ s.members)
      (hd : d ∈ s.drafts) (extended : d.production.extend m.grammar.vocabulary symbol = .ok p) :
      Change s { s with drafts := s.drafts.set j ⟨p, d.origin?.filter (· = m.family)⟩ }
  | inserted {i : Nat} {m : Member} {d : Draft} {head : Nonterminal} {g : Grammar} (hm : m ∈ s.members)
      (hd : d ∈ s.drafts) (inserted : m.grammar.insert head d.production = .ok g) :
      Change s { s with members := s.members.set i ⟨m.family, g, m.added ++ [d]⟩ }
  | copied {m : Member} (hm : m ∈ s.members) : Change s { s with members := s.members ++ [m] }

/-- A call fails and leaves the session as it was, or it succeeds. -/
theorem step_cases (s : Session) (call : Call) :
    (∃ e, s.step call = (.error e, s)) ∨ ∃ s', s.step call = (.ok (), s') ∧ s.Change s' := by
  cases call with
  | start v start =>
      rw [step]
      split
      · exact .inl ⟨_, rfl⟩
      · exact .inr ⟨_, rfl, .started ‹_›⟩
  | begin i id head first =>
      rw [step]
      split
      · exact .inr ⟨_, rfl, .idle⟩
      · rename_i m hm
        split
        · exact .inl ⟨_, rfl⟩
        · exact .inr ⟨_, rfl, .begun (List.mem_of_getElem? hm) ‹_›⟩
  | append i j symbol =>
      simp only [step, Production.append_on]
      split
      · rename_i m d hm hd
        cases hextend : d.production.extend m.grammar.vocabulary symbol with
        | error e =>
            refine .inl ⟨e, ?_⟩
            change (_, { s with drafts := s.drafts.set j d }) = _
            rw [set_of_getElem? hd]
        | ok p => exact .inr ⟨_, rfl, .extended (List.mem_of_getElem? hm) (List.mem_of_getElem? hd) hextend⟩
      · exact .inr ⟨_, rfl, .idle⟩
  | add i head j =>
      simp only [step, Grammar.add_on]
      split
      · rename_i m d hm hd
        cases hinsert : m.grammar.insert head d.production with
        | error e =>
            refine .inl ⟨e, ?_⟩
            change (_, { s with members := s.members.set i m }) = _
            rw [set_of_getElem? hm]
        | ok g => exact .inr ⟨_, rfl, .inserted (List.mem_of_getElem? hm) (List.mem_of_getElem? hd) hinsert⟩
      · exact .inr ⟨_, rfl, .idle⟩
  | copy i =>
      rw [step]
      split
      · exact .inr ⟨_, rfl, .idle⟩
      · exact .inr ⟨_, rfl, .copied (List.mem_of_getElem? ‹_›)⟩

theorem step_of_error {s : Session} {call : Call} {e : GrammarError} (h : (s.step call).1 = .error e) :
    (s.step call).2 = s := by
  rcases step_cases s call with ⟨_, hfail⟩ | ⟨_, hdone, _⟩
  · rw [hfail]
  · rw [hdone] at h
    cases h

end Session

/-- A constructed production inside the vocabulary of the family that it goes back to. -/
structure Draft.Valid (vocabularies : List Vocabulary) (d : Draft) : Prop where
  constructed : d.production.Constructed
  inside : ∀ f, d.origin? = some f → ∃ v, vocabularies[f]? = some v ∧ d.production.Inside v

/-- A constructed grammar with the vocabulary of its family and the productions that have been added. -/
structure Member.Valid (vocabularies : List Vocabulary) (m : Member) : Prop where
  constructed : m.grammar.Constructed
  vocabulary : vocabularies[m.family]? = some m.grammar.vocabulary
  productions : m.grammar.productions = m.added.map Draft.production
  added : ∀ d ∈ m.added, d.Valid vocabularies

structure Session.Valid (s : Session) : Prop where
  members : ∀ m ∈ s.members, m.Valid s.vocabularies
  drafts : ∀ d ∈ s.drafts, d.Valid s.vocabularies

section

variable {vocabularies : List Vocabulary} {v : Vocabulary} {symbol : Symbol} {s : Session} {d : Draft} {m : Member}

/-! Each call keeps a session valid. -/

theorem Draft.Valid.concat (h : d.Valid vocabularies) (v : Vocabulary) : d.Valid (vocabularies ++ [v]) := by
  refine ⟨h.constructed, fun f hf => ?_⟩
  obtain ⟨u, hu, hinside⟩ := h.inside f hf
  exact ⟨u, getElem?_append_of_some hu, hinside⟩

theorem Member.Valid.concat (h : m.Valid vocabularies) (v : Vocabulary) : m.Valid (vocabularies ++ [v]) :=
  ⟨h.constructed, getElem?_append_of_some h.vocabulary, h.productions, fun d hd => (h.added d hd).concat v⟩

theorem Member.Valid.begin (h : m.Valid vocabularies) {id : ProductionId} {head : Nonterminal} {first : Symbol}
    {p : Production} (begun : Production.begin m.grammar.vocabulary id head first = .ok p) :
    Draft.Valid vocabularies ⟨p, some m.family⟩ := by
  refine ⟨.begin begun, fun f hf => ?_⟩
  obtain rfl := Option.some.inj hf
  exact ⟨_, h.vocabulary, Production.inside_of_begin begun⟩

/-- A production is inside the vocabulary of every grammar of the family that it goes back to. -/
theorem Draft.Valid.inside_of_origin? (hd : d.Valid vocabularies) (hm : m.Valid vocabularies)
    (horigin : d.origin? = some m.family) : d.production.Inside m.grammar.vocabulary := by
  obtain ⟨v, hv, hinside⟩ := hd.inside _ horigin
  rw [hm.vocabulary, Option.some.injEq] at hv
  rw [hv]
  exact hinside

/-- A production goes on being inside a vocabulary as long as it is extended by the family that it goes back to. -/
theorem Draft.Valid.extend (hd : d.Valid vocabularies) (hm : m.Valid vocabularies) {p : Production}
    (extended : d.production.extend m.grammar.vocabulary symbol = .ok p) :
    Draft.Valid vocabularies ⟨p, d.origin?.filter (· = m.family)⟩ := by
  refine ⟨hd.constructed.extend extended, fun f hf => ?_⟩
  obtain ⟨horigin, hfamily⟩ := Option.filter_eq_some_iff.mp hf
  obtain rfl : f = m.family := of_decide_eq_true hfamily
  exact ⟨_, hm.vocabulary, (hd.inside_of_origin? hm horigin).extend extended⟩

theorem Member.Valid.insert (hm : m.Valid vocabularies) (hd : d.Valid vocabularies) {head : Nonterminal} {g : Grammar}
    (inserted : m.grammar.insert head d.production = .ok g) : Member.Valid vocabularies ⟨m.family, g, m.added ++ [d]⟩ := by
  refine ⟨hm.constructed.insert hd.constructed inserted, ?_, ?_, ?_⟩
  · rw [Grammar.vocabulary_of_insert inserted]
    exact hm.vocabulary
  · rw [Grammar.productions_of_insert inserted, hm.productions, List.map_append, List.map_singleton]
  · exact forall_mem_concat hm.added hd

namespace Session

theorem Valid.concatMember (h : s.Valid) (hm : m.Valid s.vocabularies) : Valid { s with members := s.members ++ [m] } :=
  ⟨forall_mem_concat h.members hm, h.drafts⟩

theorem Valid.concatDraft (h : s.Valid) (hd : d.Valid s.vocabularies) : Valid { s with drafts := s.drafts ++ [d] } :=
  ⟨h.members, forall_mem_concat h.drafts hd⟩

theorem Valid.setMember (h : s.Valid) (i : Nat) (hm : m.Valid s.vocabularies) :
    Valid { s with members := s.members.set i m } :=
  ⟨forall_mem_set h.members hm i, h.drafts⟩

theorem Valid.setDraft (h : s.Valid) (j : Nat) (hd : d.Valid s.vocabularies) :
    Valid { s with drafts := s.drafts.set j d } :=
  ⟨h.members, forall_mem_set h.drafts hd j⟩

theorem Valid.change (h : s.Valid) {s' : Session} (change : s.Change s') : s'.Valid := by
  cases change with
  | idle => exact h
  | @started v start g started =>
      have heq := Grammar.eq_of_ofStart started
      have hold : ∀ m ∈ s.members, m.Valid (s.vocabularies ++ [v]) := fun m hm => (h.members m hm).concat v
      refine ⟨forall_mem_concat hold ⟨.start started, ?_, ?_, List.forall_mem_nil _⟩,
        fun d hd => (h.drafts d hd).concat v⟩
      · rw [heq]
        exact List.getElem?_concat_length
      · rw [heq]
        rfl
  | begun hm begun => exact h.concatDraft ((h.members _ hm).begin begun)
  | extended hm hd extended => exact h.setDraft _ ((h.drafts _ hd).extend (h.members _ hm) extended)
  | inserted hm hd inserted => exact h.setMember _ ((h.members _ hm).insert (h.drafts _ hd) inserted)
  | copied hm => exact h.concatMember (h.members _ hm)

theorem Valid.step (h : s.Valid) (call : Call) : (s.step call).2.Valid := by
  rcases step_cases s call with ⟨_, hfail⟩ | ⟨s', hdone, change⟩
  · rw [hfail]
    exact h
  · rw [hdone]
    exact h.change change

theorem valid_after (calls : List Call) : (after calls).Valid := by
  unfold after
  have hempty : empty.Valid := ⟨by simp [empty], by simp [empty]⟩
  generalize empty = s at hempty
  induction calls generalizing s with
  | nil => exact hempty
  | cons call rest ih => exact ih _ (hempty.step call)

/-- What holds after all calls, successful and failed ones: the index and the rules of each grammar agree with its
productions, which are the ones that have been added; all productions are well formed, and those that the family of a
grammar has made are inside the vocabulary of the grammar, whichever grammar they have been added to. A further call
that fails changes nothing, since the work in place either does what the construction of a new production or of a new
grammar does, or it does nothing. -/
theorem calls_keep_representation (calls : List Call) :
    let s := after calls
    (∀ m ∈ s.members, m.grammar.Coherent ∧ m.grammar.productions = m.added.map Draft.production) ∧
    (∀ d ∈ s.drafts, d.production.WellFormed) ∧
    (∀ m ∈ s.members, ∀ d, (d ∈ s.drafts ∨ ∃ other ∈ s.members, d ∈ other.added) → d.origin? = some m.family →
      d.production.Inside m.grammar.vocabulary) ∧
    (∀ call e, (s.step call).1 = .error e → (s.step call).2 = s) ∧
    (∀ v symbol p, (Production.append v symbol).on p = InPlace.replaced (p.extend v symbol) p) ∧
    (∀ head p g, (Grammar.add head p).on g = InPlace.replaced (g.insert head p) g) := by
  intro s
  have hs : s.Valid := valid_after calls
  refine ⟨fun m hm => ?_, fun d hd => (hs.drafts d hd).constructed.wellFormed, fun m hm d hd horigin => ?_,
    fun call e h => step_of_error h, Production.append_on, Grammar.add_on⟩
  · exact ⟨(hs.members m hm).constructed.wellFormed.coherent, (hs.members m hm).productions⟩
  · have hvalid : d.Valid s.vocabularies := by
      rcases hd with hd | ⟨other, hother, hd⟩
      · exact hs.drafts d hd
      · exact (hs.members other hother).added d hd
    exact hvalid.inside_of_origin? (hs.members m hm) horigin

/-- Calls for two vocabularies, refused ones among them. A copy goes a way of its own, and the last production, which
is extended with a symbol of the larger vocabulary, gets into a grammar of the smaller one. -/
def mixed : List Call :=
  [.start ⟨4, 2⟩ ⟨0⟩, .start ⟨4, 2⟩ ⟨5⟩, .start ⟨6, 3⟩ ⟨2⟩,
    .begin 0 ⟨0⟩ ⟨0⟩ (.terminal ⟨2⟩), .append 0 0 (.nonterminal ⟨1⟩), .append 0 0 (.terminal .epsilon),
    .append 0 0 (.terminal ⟨5⟩),
    .begin 0 ⟨1⟩ ⟨1⟩ (.terminal .epsilon), .append 0 1 (.terminal ⟨2⟩),
    .begin 0 ⟨2⟩ ⟨0⟩ (.nonterminal ⟨1⟩), .append 1 2 (.terminal ⟨5⟩),
    .add 0 ⟨0⟩ 0, .add 0 ⟨0⟩ 1, .add 0 ⟨0⟩ 0, .copy 0, .add 2 ⟨1⟩ 1, .add 0 ⟨0⟩ 2]

theorem productions_after_mixed : (after mixed).members.map (fun m => (m.family, m.grammar.productions)) =
    [(0, [⟨⟨0⟩, ⟨0⟩, [.terminal ⟨2⟩, .nonterminal ⟨1⟩]⟩, ⟨⟨2⟩, ⟨0⟩, [.nonterminal ⟨1⟩, .terminal ⟨5⟩]⟩]), (1, []),
      (0, [⟨⟨0⟩, ⟨0⟩, [.terminal ⟨2⟩, .nonterminal ⟨1⟩]⟩, ⟨⟨1⟩, ⟨1⟩, [.terminal .epsilon]⟩])] := rfl

theorem drafts_after_mixed : (after mixed).drafts =
    [⟨⟨⟨0⟩, ⟨0⟩, [.terminal ⟨2⟩, .nonterminal ⟨1⟩]⟩, some 0⟩, ⟨⟨⟨1⟩, ⟨1⟩, [.terminal .epsilon]⟩, some 0⟩,
      ⟨⟨⟨2⟩, ⟨0⟩, [.nonterminal ⟨1⟩, .terminal ⟨5⟩]⟩, none⟩] := rfl

/-- The productions made by the first family stay inside its vocabulary, every grammar is coherent, and a number that a
copy knows from before is refused without a trace. -/
theorem mixed_calls_keep_representation :
    (∀ m ∈ (after mixed).members, m.grammar.Coherent) ∧
    (∃ m ∈ (after mixed).members, m.family = 0 ∧
      ∀ d ∈ (after mixed).drafts, d.origin? = some 0 → d.production.Inside m.grammar.vocabulary) ∧
    ⟨⟨⟨1⟩, ⟨1⟩, [.terminal .epsilon]⟩, some 0⟩ ∈ (after mixed).drafts ∧
    ((after mixed).step (.add 2 ⟨0⟩ 0)).1 = .error (.duplicateProduction ⟨0⟩) ∧
    ((after mixed).step (.add 2 ⟨0⟩ 0)).2 = after mixed := by
  obtain ⟨hmembers, _, hinside, hfail, _⟩ := calls_keep_representation mixed
  have hrefused : ((after mixed).step (.add 2 ⟨0⟩ 0)).1 = .error (.duplicateProduction ⟨0⟩) := rfl
  obtain ⟨m, hm, heq⟩ := List.mem_map.mp (productions_after_mixed ▸ List.mem_cons_self)
  have hfamily : m.family = 0 := congrArg Prod.fst heq
  refine ⟨fun m hm => (hmembers m hm).1, ⟨m, hm, hfamily, fun d hd horigin => ?_⟩, ?_, hrefused, hfail _ _ hrefused⟩
  · exact hinside m hm d (.inl hd) (by rw [hfamily, horigin])
  · rw [drafts_after_mixed]
    exact List.mem_cons_of_mem _ List.mem_cons_self

end Session

end

end PredictiveParsing
