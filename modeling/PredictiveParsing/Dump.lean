/-! # Structured text of values

A dump shows a value for inspection, either compactly on one line or expanded, with every entry of a block on a line
of its own, indented by its depth and followed by a comma. A block without entries is its two brackets in both
forms. -/

namespace PredictiveParsing

/-- The parts of a value: a plain text, a part under a label, or a block of parts between brackets. -/
inductive Dump where
  | atom (s : String)
  | labelled (label : String) (value : Dump)
  | block (opening closing : String) (spaced : Bool) (entries : List Dump)
deriving Inhabited

namespace Dump

/-- A list, written in square brackets. -/
def list (entries : List Dump) : Dump := block "[" "]" false entries

/-- A map, written in curly brackets with a colon behind each key. -/
def map (entries : List (String × Dump)) : Dump :=
  block "\x7b" "\x7d" false (entries.map fun (key, value) => labelled key value)

/-- A record, written as its name and its fields in curly brackets. -/
def record (name : String) (fields : List (String × Dump)) : Dump :=
  block (name ++ " \x7b") "\x7d" true (fields.map fun (field, value) => labelled field value)

/-- A value that may be absent. -/
def option : Option Dump → Dump
  | none => atom "None"
  | some value => block "Some(" ")" false [value]

/-- A text in quotes; it holds no quote itself. -/
def quoted (s : String) : String := "\"" ++ s ++ "\""

mutual

/-- The form on one line. -/
def compact : Dump → String
  | atom s => s
  | labelled label value => label ++ ": " ++ value.compact
  | block opening closing spaced entries =>
    let padding := if spaced then " " else ""
    opening ++ padding ++ ", ".intercalate (compactAll entries) ++ padding ++ closing

/-- The one-line forms of parts. -/
def compactAll : List Dump → List String
  | [] => []
  | entry :: rest => entry.compact :: compactAll rest

end

mutual

/-- The form with an entry a line, for a value at the given depth. -/
def expandedAt (depth : Nat) : Dump → String
  | atom s => s
  | labelled label value => label ++ ": " ++ value.expandedAt depth
  | block opening closing _ entries =>
    match entries with
    | [] => opening ++ closing
    | entries => opening ++ "\n" ++ expandedLines (depth + 1) entries ++ "".pushn ' ' (4 * depth) ++ closing

/-- The expanded forms of parts, each with its indentation, its comma and its line end. -/
def expandedLines (depth : Nat) : List Dump → String
  | [] => ""
  | entry :: rest => "".pushn ' ' (4 * depth) ++ entry.expandedAt depth ++ ",\n" ++ expandedLines depth rest

end

def expanded (value : Dump) : String := value.expandedAt 0

end Dump

end PredictiveParsing
