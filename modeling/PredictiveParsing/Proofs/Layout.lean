import PredictiveParsing.Layout

/-! # Words of a layout

The words of a text are what white space separates. A layout decides for each group of a document whether it is flat,
and with that at each place whether there is a space or a line break. Whatever it decides, the text has the words of the
one that does not break at all. A width, with all that stands before a group, is one way to decide. -/

namespace PredictiveParsing

/-- What white space separates in a text. -/
def words (s : String) : List String :=
  ((s.toList.splitOnP Char.isWhitespace).filter (· ≠ [])).map String.ofList

theorem words_empty : words "" = [] := rfl

theorem words_of_not_isWhitespace {s : String} (hne : s ≠ "") (h : ∀ c ∈ s.toList, c.isWhitespace = false) :
    words s = [s] := by
  have hlist : s.toList ≠ [] := by rwa [Ne, String.toList_eq_nil_iff]
  rw [words, List.splitOnP_eq_singleton h, List.filter_eq_self.mpr (by simpa using hlist), List.map_singleton,
    String.ofList_toList]

/-- White space, and at least one character of it. -/
def Blank (s : String) : Prop := s ≠ "" ∧ ∀ c ∈ s.toList, c.isWhitespace = true

theorem blank_space : Blank " " := ⟨by decide, List.forall_mem_singleton.mpr rfl⟩

theorem toList_pushn (s : String) (c : Char) (n : Nat) : (s.pushn c n).toList = s.toList ++ List.replicate n c := by
  rw [String.pushn_eq_repeat_push]
  induction n with
  | zero => rw [Nat.repeat, List.replicate_zero, List.append_nil]
  | succ n ih => rw [Nat.repeat, String.toList_push, ih, List.replicate_succ', List.append_assoc]

theorem blank_newline (indent : Nat) : Blank ("\n".pushn ' ' indent) := by
  constructor
  · rw [Ne, ← String.toList_eq_nil_iff, toList_pushn]
    simp
  · rw [toList_pushn]
    refine List.forall_mem_append.mpr ⟨List.forall_mem_singleton.mpr rfl, fun c hc => ?_⟩
    rw [List.eq_of_mem_replicate hc]
    rfl

/-- Leading white space belongs to no word. -/
theorem splitOnP_blank_append {p : Char → Bool} {blank : List Char} (h : ∀ c ∈ blank, p c = true) (rest : List Char) :
    ((blank ++ rest).splitOnP p).filter (· ≠ []) = (rest.splitOnP p).filter (· ≠ []) := by
  induction blank with
  | nil => rfl
  | cons c blank ih =>
      obtain ⟨hc, hblank⟩ := List.forall_mem_cons.mp h
      rw [List.cons_append, ← List.nil_append (c :: _), List.splitOnP_append_cons _ _ hc, List.splitOnP_nil]
      exact ih hblank

theorem words_append_blank {blank : String} (h : Blank blank) (before after : String) :
    words (before ++ blank ++ after) = words before ++ words after := by
  obtain ⟨hne, hall⟩ := h
  rw [Ne, ← String.toList_eq_nil_iff] at hne
  obtain ⟨c, rest, hlist⟩ := List.exists_cons_of_ne_nil hne
  rw [hlist, List.forall_mem_cons] at hall
  rw [words, String.toList_append, String.toList_append, hlist, List.append_assoc, List.cons_append,
    List.splitOnP_append_cons _ _ hall.1, List.filter_append, splitOnP_blank_append hall.2, List.map_append]
  rfl

/-- Interchangeable within a text without a change of its words. -/
def Alike (s t : String) : Prop := ∀ before after, words (before ++ s ++ after) = words (before ++ t ++ after)

namespace Alike

variable {s s' t t' : String}

theorem refl (s : String) : Alike s s := fun _ _ => rfl

theorem of_blank (hs : Blank s) (ht : Blank t) : Alike s t := fun before after => by
  rw [words_append_blank hs, words_append_blank ht]

theorem append (hs : Alike s s') (ht : Alike t t') : Alike (s ++ t) (s' ++ t') := fun before after => by
  calc words (before ++ (s ++ t) ++ after)
      = words (before ++ s ++ (t ++ after)) := by simp only [String.append_assoc]
    _ = words (before ++ s' ++ (t ++ after)) := hs _ _
    _ = words (before ++ s' ++ t ++ after) := by simp only [String.append_assoc]
    _ = words (before ++ s' ++ t' ++ after) := ht _ _
    _ = words (before ++ (s' ++ t') ++ after) := by simp only [String.append_assoc]

theorem words_eq (h : Alike s t) : words s = words t := by
  have := h "" ""
  rwa [String.empty_append, String.append_empty, String.empty_append, String.append_empty] at this

end Alike

/-- Texts with a space in front of each of them add their words to what stands before. -/
theorem words_append_join (before : String) (texts : List String) :
    words (before ++ String.join (texts.map (" " ++ ·))) = words before ++ texts.flatMap words := by
  induction texts generalizing before with
  | nil => rw [List.map_nil, String.join_nil, String.append_empty, List.flatMap_nil, List.append_nil]
  | cons s rest ih =>
      rw [List.map_cons, String.join_cons, ← String.append_assoc, ← String.append_assoc, String.append_assoc,
        words_append_blank blank_space, ih, List.flatMap_cons]

theorem words_intercalate (texts : List String) : words (" ".intercalate texts) = texts.flatMap words := by
  induction texts with
  | nil => rw [String.intercalate_nil, words_empty, List.flatMap_nil]
  | cons s rest ih =>
      cases rest with
      | nil => rw [String.intercalate_singleton, List.flatMap_singleton]
      | cons =>
          rw [String.intercalate_cons_of_ne_nil (List.cons_ne_nil _ _), words_append_blank blank_space,
            List.flatMap_cons, ← ih]

namespace Doc

/-- The text that is not broken anywhere. -/
def oneLine : Doc → String
  | nil => ""
  | text s => s
  | line => " "
  | hardline => " "
  | nest _ doc => doc.oneLine
  | group doc => doc.oneLine
  | append first second => first.oneLine ++ second.oneLine

theorem oneLine_append (first second : Doc) : (first ++ second).oneLine = first.oneLine ++ second.oneLine := rfl

/-- The pieces of a document for some choice of the groups that are flat. Within a flat group everything is flat, and a
group that is not chosen is as flat as what stands around it. -/
inductive Layout : Doc → Bool → Nat → List Piece → Prop where
  | nil {flat : Bool} {indent : Nat} : Layout nil flat indent []
  | text {flat : Bool} {indent : Nat} {s : String} : Layout (text s) flat indent [.text s]
  | space {indent : Nat} : Layout line true indent [.space]
  | newline {indent : Nat} : Layout line false indent [.newline indent]
  | hardline {flat : Bool} {indent : Nat} : Layout hardline flat indent [.newline indent]
  | nest {flat : Bool} {indent more : Nat} {doc : Doc} {pieces : List Piece}
      (inner : Layout doc flat (indent + more) pieces) : Layout (nest more doc) flat indent pieces
  | chosen {flat : Bool} {indent : Nat} {doc : Doc} {pieces : List Piece}
      (inner : Layout doc true indent pieces) : Layout (group doc) flat indent pieces
  | unchosen {flat : Bool} {indent : Nat} {doc : Doc} {pieces : List Piece}
      (inner : Layout doc flat indent pieces) : Layout (group doc) flat indent pieces
  | append {flat : Bool} {indent : Nat} {first second : Doc} {before behind : List Piece}
      (inner : Layout first flat indent before) (rest : Layout second flat indent behind) :
      Layout (append first second) flat indent (before ++ behind)

theorem alike_join_singleton {piece : Piece} {s : String} (h : Alike piece.toText s) :
    Alike (String.join ([piece].map Piece.toText)) s := by
  rwa [List.map_singleton, String.join_cons, String.join_nil, String.append_empty]

namespace Layout

variable {doc : Doc} {flat : Bool} {indent : Nat} {pieces : List Piece}

/-- A layout and the unbroken text are interchangeable, whichever groups are flat. -/
theorem alike (h : doc.Layout flat indent pieces) : Alike (String.join (pieces.map Piece.toText)) doc.oneLine := by
  induction h with
  | nil => exact .refl ""
  | @text _ _ s => exact alike_join_singleton (.refl s)
  | space => exact alike_join_singleton (.refl " ")
  | newline => exact alike_join_singleton (.of_blank (blank_newline _) blank_space)
  | hardline => exact alike_join_singleton (.of_blank (blank_newline _) blank_space)
  | nest _ ih => exact ih
  | chosen _ ih => exact ih
  | unchosen _ ih => exact ih
  | append _ _ ih₁ ih₂ =>
      rw [List.map_append, String.join_append]
      exact ih₁.append ih₂

theorem words_eq (h : doc.Layout flat indent pieces) :
    words (String.join (pieces.map Piece.toText)) = words doc.oneLine := h.alike.words_eq

end Layout

/-- A width is one way to choose the groups that are flat. -/
theorem layout_pieces (width : Nat) (flat : Bool) (indent after column : Nat) (doc : Doc) :
    doc.Layout flat indent (pieces width flat indent after column doc).1 := by
  induction doc generalizing flat indent after column with
  | nil => exact .nil
  | text => exact .text
  | line =>
      cases flat with
      | true => exact .space
      | false => exact .newline
  | hardline => exact .hardline
  | nest more doc ih => exact .nest (ih _ _ _ _)
  | group doc ih =>
      rw [pieces]
      cases doc.fits width column after with
      | true =>
          rw [Bool.or_true]
          exact .chosen (ih _ _ _ _)
      | false =>
          rw [Bool.or_false]
          exact .unchosen (ih _ _ _ _)
  | append first second ih₁ ih₂ => exact .append (ih₁ _ _ _ _) (ih₂ _ _ _ _)

/-- The words of a document do not depend on the width at which it is laid out. -/
theorem words_render (doc : Doc) (width : Nat) : words (doc.render width) = words doc.oneLine :=
  (layout_pieces width false 0 0 0 doc).words_eq

theorem oneLine_joinWith (separator : Doc) (docs : List Doc) :
    (joinWith separator docs).oneLine = separator.oneLine.intercalate (docs.map oneLine) := by
  fun_induction joinWith separator docs with
  | case1 => rfl
  | case2 doc => exact String.intercalate_singleton.symm
  | case3 doc rest hne ih =>
      rw [List.map_cons, String.intercalate_cons_of_ne_nil (mt List.map_eq_nil_iff.mp hne), ← ih, String.append_assoc]
      rfl

end Doc

end PredictiveParsing
