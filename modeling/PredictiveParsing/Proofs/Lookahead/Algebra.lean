import PredictiveParsing.Proofs.Lookahead

/-! # Algebra of bounded words

A word is bounded in two ways: by a number of terminals, and by the end marker, behind which nothing stands. A
concatenation appends the terminals of the second word until one of the bounds refuses the next one. It is associative,
a word stands unchanged beside the empty word unless it is cut, and cutting all words to a smaller bound goes through
it. The laws hold for all words that the operations make, also for words that are longer than the bound. -/

namespace PredictiveParsing

namespace Lookahead

variable {u v w : Lookahead} {t : Terminal} {k : Nat}

theorem WellFormed.push? (h : w.WellFormed) {w' : Lookahead} (pushed : w.push? t k = some w') : w'.WellFormed := by
  obtain ⟨_, hopen, _⟩ := push?_eq_some_iff.mp pushed
  have hwithin : w.Within k := ⟨h, Nat.le_of_lt (isComplete_eq_false_iff.mp hopen).1⟩
  exact (hwithin.push? pushed).wellFormed

theorem WellFormed.concat (hu : u.WellFormed) (hv : v.WellFormed) (k : Nat) : (u.concat v k).WellFormed := by
  cases hcomplete : u.isComplete k with
  | true => rwa [concat_of_isComplete hcomplete]
  | false =>
      have hwithin : u.Within k := ⟨hu, Nat.le_of_lt (isComplete_eq_false_iff.mp hcomplete).1⟩
      exact (hwithin.concat hv).wellFormed

/-- Constructed by the operations on words from any terminals and under any bounds. -/
inductive Constructed : Lookahead → Prop where
  | ofTerminals (terminals : List Terminal) : Constructed (ofTerminals terminals)
  | push? {w w' : Lookahead} {t : Terminal} {k : Nat} (hw : Constructed w) (pushed : w.push? t k = some w') :
      Constructed w'
  | concat {u v : Lookahead} (hu : Constructed u) (hv : Constructed v) (k : Nat) : Constructed (u.concat v k)
  | truncate {w : Lookahead} (hw : Constructed w) (n : Nat) : Constructed (w.truncate n)

theorem Constructed.wellFormed (h : w.Constructed) : w.WellFormed := by
  induction h with
  | ofTerminals terminals => exact wellFormed_ofTerminals terminals
  | push? _ pushed ih => exact ih.push? pushed
  | concat _ _ k ihu ihv => exact ihu.concat ihv k
  | truncate _ n ih => exact ih.truncate n

/-- Appends terminals one after the other, up to the first one that is refused. -/
def pushAll (w : Lookahead) (k : Nat) : List Terminal → Lookahead
  | [] => w
  | t :: rest =>
    match w.push? t k with
    | none => w
    | some w' => w'.pushAll k rest

theorem pushAll_of_isComplete (complete : w.isComplete k = true) (terminals : List Terminal) :
    w.pushAll k terminals = w := by
  cases terminals with
  | nil => rfl
  | cons t rest => rw [pushAll, push?, complete, Bool.or_true, if_pos rfl]

/-- Of a word behind the empty one as much is left as the bound has room for. -/
theorem empty_concat_eq_truncate (w : Lookahead) (k : Nat) : empty.concat w k = w.truncate k := by
  cases k with
  | zero => rfl
  | succ k =>
      rw [concat_of_open (isComplete_empty (Nat.succ_pos k))]
      rfl

theorem wellFormed_cons_iff {rest : List Terminal} :
    WellFormed ⟨t :: rest⟩ ↔ t ≠ .epsilon ∧ (rest ≠ [] → t ≠ .endMarker) ∧ WellFormed ⟨rest⟩ := by
  cases rest with
  | nil => simp [WellFormed]
  | cons s rest =>
      simp only [WellFormed, List.forall_mem_cons, List.dropLast_cons_cons, ne_eq, reduceCtorEq, not_false_eq_true,
        true_imp_iff]
      tauto

theorem isTerminated_append (x y : List Terminal) :
    isTerminated ⟨x ++ y⟩ = (y.getLast?.or x.getLast?).any Terminal.isEnd := by
  rw [isTerminated, List.getLast?_append]

/-- The first terminal of the second word can be appended on its own if nothing stands behind the end marker. -/
theorem concat_cons {rest : List Terminal} (h : w.isComplete k = false) (last : rest ≠ [] → t ≠ .endMarker) :
    w.concat ⟨t :: rest⟩ k = concat ⟨w.terminals ++ [t]⟩ ⟨rest⟩ k := by
  have hlength := (isComplete_eq_false_iff.mp h).1
  have hnext : length ⟨w.terminals ++ [t]⟩ = w.length + 1 := by rw [length, List.length_append]; rfl
  rw [concat_of_open h, show k - w.length = (k - (w.length + 1)) + 1 by omega, List.take_succ_cons, List.append_cons]
  cases hcomplete : isComplete ⟨w.terminals ++ [t]⟩ k with
  | false => rw [concat_of_open hcomplete, hnext]
  | true =>
      -- The bound has no room for another terminal, or there is no other terminal.
      have htail : rest.take (k - (w.length + 1)) = [] := by
        rw [isComplete, hnext, Bool.or_eq_true, decide_eq_true_eq, isTerminated_append] at hcomplete
        rcases hcomplete with hfull | hended
        · rw [Nat.sub_eq_zero_of_le hfull, List.take_zero]
        · have hnil : rest = [] := by_contra fun hne => last hne (Terminal.isEnd_iff.mp hended)
          rw [hnil, List.take_nil]
      rw [concat_of_isComplete hcomplete, htail, List.append_nil]

/-- A concatenation appends the terminals of the second word until one is refused. -/
theorem pushAll_eq_concat {terminals : List Terminal} (h : WellFormed ⟨terminals⟩) (w : Lookahead) :
    w.pushAll k terminals = w.concat ⟨terminals⟩ k := by
  induction terminals generalizing w with
  | nil => exact (concat_empty w k).symm
  | cons t rest ih =>
      obtain ⟨hplain, hlast, hrest⟩ := wellFormed_cons_iff.mp h
      cases hopen : w.isComplete k with
      | true => rw [pushAll_of_isComplete hopen, concat_of_isComplete hopen]
      | false =>
          rw [pushAll, push?_eq_some_iff.mpr ⟨hplain, hopen, rfl⟩, concat_cons hopen hlast]
          exact ih hrest _

theorem isComplete_append (hu : u.isComplete k = false) (hv : v.isComplete k = false)
    (room : u.length + v.length < k) : isComplete ⟨u.terminals ++ v.terminals⟩ k = false := by
  obtain ⟨_, hu⟩ := isComplete_eq_false_iff.mp hu
  obtain ⟨_, hv⟩ := isComplete_eq_false_iff.mp hv
  refine isComplete_eq_false_iff.mpr ⟨by rwa [length, List.length_append], ?_⟩
  rw [isTerminated_append]
  rw [isTerminated] at hu hv
  cases hlast : v.terminals.getLast? with
  | none => rwa [Option.none_or]
  | some t => rwa [hlast] at hv

theorem concat_assoc (u v w : Lookahead) (k : Nat) : (u.concat v k).concat w k = u.concat (v.concat w k) k := by
  cases hu : u.isComplete k with
  | true => rw [concat_of_isComplete hu, concat_of_isComplete hu, concat_of_isComplete hu]
  | false =>
    cases hv : v.isComplete k with
    | true => rw [concat_of_isComplete hv, concat_of_isComplete (isComplete_concat hv)]
    | false =>
      rw [concat_of_open hv w, concat_of_open hu, concat_of_open hu]
      by_cases hroom : u.length + v.length < k
      · -- Both words fit, and the third one is cut by what they leave of the bound.
        have hfits : v.terminals.length ≤ k - u.length := by rw [← length]; omega
        rw [List.take_of_length_le hfits, concat_of_open (isComplete_append hu hv hroom), List.take_append,
          List.take_of_length_le hfits, List.take_take, List.append_assoc]
        simp only [length, List.length_append] at hroom ⊢
        congr 4
        omega
      · -- The second word fills the bound, and the third one does not matter.
        have hcut : k - u.length ≤ v.terminals.length := by rw [← length]; omega
        have hfull : isComplete ⟨u.terminals ++ v.terminals.take (k - u.length)⟩ k = true := by
          rw [isComplete, Bool.or_eq_true, decide_eq_true_eq, length, List.length_append, List.length_take_of_le hcut]
          exact .inl (by rw [← length]; omega)
        rw [concat_of_isComplete hfull, List.take_append_of_le_length hcut]

/-- Words that the operations make are well formed, and a concatenation is what appending the terminals of the second
word one after the other leaves. It is associative under each bound, and truncation under a smaller bound goes through
it. -/
theorem concat_laws (hu : u.Constructed) (hv : v.Constructed) (w : Lookahead) (k : Nat) :
    u.WellFormed ∧
    u.concat v k = u.pushAll k v.terminals ∧
    (u.concat v k).concat w k = u.concat (v.concat w k) k ∧
    empty.concat u k = u.truncate k ∧
    u.concat empty k = u ∧
    (u.isComplete k = true → u.concat v k = u) ∧
    ∀ j ≤ k, (u.concat v k).truncate j = (u.truncate j).concat (v.truncate j) j :=
  ⟨hu.wellFormed, (pushAll_eq_concat hv.wellFormed u).symm, concat_assoc u v w k, empty_concat_eq_truncate u k,
    concat_empty u k, fun hcomplete => concat_of_isComplete hcomplete v, fun _ hj => truncate_concat u v hj⟩

/-- A word made of a list that holds the epsilon marker, and behind it one of a list that goes on behind its end. -/
def joined : Lookahead := (ofTerminals [⟨2⟩, .epsilon, ⟨3⟩]).concat (ofTerminals [⟨4⟩, .endMarker, ⟨5⟩]) 5

theorem constructed_joined : joined.Constructed := .concat (.ofTerminals _) (.ofTerminals _) 5

/-- A bound that the word exceeds cuts it only behind another word. -/
theorem concat_laws_joined :
    joined.Constructed ∧ joined.terminals = [⟨2⟩, ⟨3⟩, ⟨4⟩, .endMarker] ∧ joined.WellFormed ∧
    joined.concat (ofTerminals [⟨6⟩]) 3 = joined ∧ empty.concat joined 3 = ⟨[⟨2⟩, ⟨3⟩, ⟨4⟩]⟩ ∧
    ((ofTerminals [⟨6⟩]).concat joined 3).concat (ofTerminals [⟨7⟩]) 3 = ⟨[⟨6⟩, ⟨2⟩, ⟨3⟩]⟩ ∧
    ((ofTerminals [⟨6⟩]).concat joined 3).truncate 2 = ⟨[⟨6⟩, ⟨2⟩]⟩ := by
  have hconstructed : (ofTerminals [⟨6⟩]).Constructed := .ofTerminals _
  obtain ⟨hwellFormed, _, _, hempty, _, hcomplete, _⟩ := concat_laws constructed_joined hconstructed empty 3
  obtain ⟨_, _, hassoc, _, _, _, htruncate⟩ := concat_laws hconstructed constructed_joined (ofTerminals [⟨7⟩]) 3
  exact ⟨constructed_joined, rfl, hwellFormed, hcomplete rfl, hempty, hassoc, htruncate 2 (by decide)⟩

end Lookahead

end PredictiveParsing
