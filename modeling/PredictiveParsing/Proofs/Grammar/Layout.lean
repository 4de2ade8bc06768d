import PredictiveParsing.Proofs.Grammar.Check
import PredictiveParsing.Proofs.Layout
import PredictiveParsing.Table

/-! # Words of grammars and tables

A grammar has two renderings: a text for each production, and a document of all of them. At every width the words of
the document are those of the texts, in the order of the heads. The words of the tables do not depend on the width
either. -/

namespace PredictiveParsing

theorem isWhitespace_of_isDigit {c : Char} (h : c.isDigit = true) : c.isWhitespace = false := by
  rw [Bool.eq_false_iff]
  intro hblank
  simp only [Char.isWhitespace, Bool.or_eq_true, decide_eq_true_eq] at hblank
  rcases hblank with ((rfl | rfl) | rfl) | rfl <;> cases h

theorem words_text_nonterminal (a : Nonterminal) : words a.text = [a.text] := by
  have htext : a.text.toList = ['N', 'T'] ++ Nat.toDigits 10 a.id := by
    rw [← Nat.toList_repr]
    exact String.toList_append
  apply words_of_not_isWhitespace
  · rw [Ne, ← String.toList_eq_nil_iff, htext]
    exact List.cons_ne_nil _ _
  · rw [htext]
    refine List.forall_mem_append.mpr ⟨?_, fun c hc => ?_⟩
    · exact List.forall_mem_cons.mpr ⟨rfl, List.forall_mem_singleton.mpr rfl⟩
    · exact isWhitespace_of_isDigit (Nat.isDigit_of_mem_toDigits (by decide) (by decide) hc)

/-- The document of a production has the words of its text. -/
theorem words_oneLine_production (p : Production) : words p.toDoc.oneLine = words p.text := by
  have hdoc : p.toDoc.oneLine = p.id.text ++ ": " ++ p.head.text ++ " ->" ++ " " ++
      " ".intercalate (p.symbols.map Symbol.text) := by
    simp only [Production.toDoc, Doc.softline, Doc.oneLine, Doc.oneLine_append, Doc.oneLine_joinWith, List.map_map,
      String.append_assoc]
    rfl
  have htext : p.text = p.id.text ++ ": " ++ p.head.text ++ " ->" ++
      String.join ((p.symbols.map Symbol.text).map (" " ++ ·)) := by
    rw [List.map_map]
    rfl
  rw [hdoc, htext, words_append_blank blank_space, words_append_join, words_intercalate]

/-- Documents below each other have their words one after the other. -/
theorem words_oneLine_lines (docs : List Doc) :
    words (Doc.joinWith .hardline docs).oneLine = docs.flatMap fun doc => words doc.oneLine := by
  rw [Doc.oneLine_joinWith]
  exact (words_intercalate _).trans (List.flatMap_map _ _ _)

theorem words_render_lines (docs : List Doc) (width : Nat) :
    words ((Doc.joinWith .hardline docs).render width) = docs.flatMap fun doc => words doc.oneLine := by
  rw [Doc.words_render, words_oneLine_lines]

theorem Grammar.words_render (g : Grammar) (width : Nat) :
    words (g.toDoc.render width) = "Start" :: "=" :: g.start.text ::
      g.heads.flatMap fun a => (g.alternatives a).flatMap fun p => words p.text := by
  have hdoc : g.toDoc.oneLine = "Start =" ++ " " ++ (g.start.text ++ " " ++
      (Doc.joinWith .hardline (g.heads.map fun a =>
        .joinWith .hardline ((g.alternatives a).map Production.toDoc))).oneLine) := by
    simp only [toDoc, Doc.oneLine, Doc.oneLine_append, String.append_assoc]
  have halternatives (a : Nonterminal) :
      words (Doc.joinWith .hardline ((g.alternatives a).map Production.toDoc)).oneLine =
        (g.alternatives a).flatMap fun p => words p.text := by
    rw [words_oneLine_lines, List.flatMap_map]
    simp only [words_oneLine_production]
  rw [Doc.words_render, hdoc, words_append_blank blank_space, words_append_blank blank_space, words_text_nonterminal,
    words_oneLine_lines, List.flatMap_map]
  simp only [halternatives]
  rfl

/-- The row of a nonterminal on one line. -/
def LookaheadTable.rowText (a : Nonterminal) (row : List Lookahead) : String :=
  a.text ++ " | \x7b " ++ ", ".intercalate (row.map Lookahead.text) ++ " \x7d"

theorem LookaheadTable.oneLine_rowDoc (a : Nonterminal) (row : List Lookahead) :
    (rowDoc a row).oneLine = rowText a row := by
  simp only [rowDoc, rowText, Doc.oneLine, Doc.oneLine_append, Doc.oneLine_joinWith, List.map_map, String.append_assoc]
  rfl

theorem LookaheadTable.words_render (table : LookaheadTable) (width : Nat) :
    words (table.toDoc.render width) = table.toList.flatMap fun (a, row) => words (rowText a row) := by
  rw [toDoc, words_render_lines, List.flatMap_map]
  simp only [oneLine_rowDoc]

theorem Table.words_render (table : Table) (width : Nat) :
    words (table.toDoc.render width) = table.toList.flatMap fun (key, id) =>
      words s!"{key.nonterminal.text}: {key.word.text} -> {id.text}" := by
  rw [toDoc, words_render_lines, List.flatMap_map]
  rfl

/-- At every width the document of a grammar has the words of its heading and of the texts of its productions, those of
a head together and in the order in which they were added, and the words of a table are those of its rows. -/
theorem layout_keeps_words :
    (∀ g : Grammar, g.Constructed →
      (g.heads.Pairwise (·.id < ·.id) ∧ ∀ a, a ∈ g.heads ↔ ∃ p ∈ g.productions, p.head = a) ∧
      ∀ width, words (g.toDoc.render width) = "Start" :: "=" :: g.start.text ::
        g.heads.flatMap fun a => (g.productions.filter (·.head = a)).flatMap fun p => words p.text) ∧
    (∀ (table : LookaheadTable) (width : Nat),
      words (table.toDoc.render width) = table.toList.flatMap fun (a, row) => words (LookaheadTable.rowText a row)) ∧
    ∀ (table : Table) (width : Nat),
      words (table.toDoc.render width) = table.toList.flatMap fun (key, id) =>
        words s!"{key.nonterminal.text}: {key.word.text} -> {id.text}" := by
  refine ⟨fun g constructed => ?_, LookaheadTable.words_render, Table.words_render⟩
  have hg := constructed.wellFormed
  refine ⟨⟨g.pairwise_heads, fun a => by rw [Grammar.mem_heads, hg.defines_iff]⟩, fun width => ?_⟩
  simp only [g.words_render, hg.alternatives_eq_filter]

theorem Grammar.heads_nested : nested.heads = [⟨0⟩, ⟨1⟩] := by cbv

/-- A narrow layout breaks the productions, and all words stay apart from each other. -/
theorem layout_of_nested_keeps_words :
    Grammar.nested.Constructed ∧
    Grammar.nested.toDoc.render 12 =
      "Start = NT0\nP0: NT0 ->\nT2 <NT0> T3\nP1: NT0 ->\n<NT1>\nP2: NT1 ->\nε" ∧
    ∀ width, words (Grammar.nested.toDoc.render width) =
      ["Start", "=", "NT0", "P0:", "NT0", "->", "T2", "<NT0>", "T3", "P1:", "NT0", "->", "<NT1>",
        "P2:", "NT1", "->", "ε"] := by
  obtain ⟨_, hwords⟩ := layout_keeps_words.1 _ Grammar.constructed_nested
  refine ⟨Grammar.constructed_nested, ?_, fun width => (hwords width).trans ?_⟩
  · rw [Grammar.toDoc, Grammar.heads_nested]
    simp only [Grammar.constructed_nested.wellFormed.alternatives_eq_filter]
    rfl
  · rw [Grammar.heads_nested]
    rfl

end PredictiveParsing
