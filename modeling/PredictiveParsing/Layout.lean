/-! # Documents and their layout

A document says where a text may be broken into lines; laying it out at a width decides where it is. A line is a
space in flat text and a line break with the indentation of its nest in broken text. A group met in broken text
becomes flat if its flat text, followed by what the rest of the document puts on the same line before the next place
where it may break, stays within the width. Widths count the bytes of the text. The layout first yields pieces; texts
are the same pieces at every width, and only the pieces between them differ. -/

namespace PredictiveParsing

/-- A text with places where it may be broken. -/
inductive Doc where
  | nil
  | text (s : String)
  | line
  | hardline
  | nest (indent : Nat) (doc : Doc)
  | group (doc : Doc)
  | append (first second : Doc)
deriving Inhabited

/-- What a layout consists of. -/
inductive Piece where
  | text (s : String)
  | space
  | newline (indent : Nat)
deriving DecidableEq, Inhabited

namespace Piece

def toText : Piece → String
  | text s => s
  | space => " "
  | newline indent => "\n".pushn ' ' indent

end Piece

namespace Doc

instance : Append Doc := ⟨append⟩

/-- A space that is broken only where the line would become too long. -/
def softline : Doc := group line

/-- The documents in order with a separator between them. -/
def joinWith (separator : Doc) : List Doc → Doc
  | [] => nil
  | [doc] => doc
  | doc :: rest => doc ++ (separator ++ joinWith separator rest)

/-- The width of the flat text, if it has one. -/
def flatWidth? : Doc → Option Nat
  | nil => some 0
  | text s => some s.utf8ByteSize
  | line => some 1
  | hardline => none
  | nest _ doc => doc.flatWidth?
  | group doc => doc.flatWidth?
  | append first second => do return (← first.flatWidth?) + (← second.flatWidth?)

/-- The width of the broken text up to its first line break, and whether there is one. -/
def leadingWidth : Doc → Nat × Bool
  | nil => (0, false)
  | text s => (s.utf8ByteSize, false)
  | line => (0, true)
  | hardline => (0, true)
  | nest _ doc => doc.leadingWidth
  | group doc => doc.leadingWidth
  | append first second =>
    match first.leadingWidth with
    | (width, true) => (width, true)
    | (width, false) => (width + second.leadingWidth.1, second.leadingWidth.2)

/-- The width up to the first line break of the broken text followed by text of width `after`. -/
def lead (doc : Doc) (after : Nat) : Nat :=
  match doc.leadingWidth with
  | (width, true) => width
  | (width, false) => width + after

/-- Whether a group that starts at `column` is laid out flat, where `after` is the width of what follows it. -/
def fits (width column after : Nat) (doc : Doc) : Bool :=
  match doc.flatWidth? with
  | some flat => decide (column + flat + after ≤ width)
  | none => false

/-- The pieces of a document and the column behind them. The document starts at `column`, and text of width `after`
follows it before the next place where the line may break. -/
def pieces (width : Nat) (flat : Bool) (indent after column : Nat) : Doc → List Piece × Nat
  | nil => ([], column)
  | text s => ([.text s], column + s.utf8ByteSize)
  | line => if flat then ([.space], column + 1) else ([.newline indent], indent)
  | hardline => ([.newline indent], indent)
  | nest more doc => pieces width flat (indent + more) after column doc
  | group doc => pieces width (flat || doc.fits width column after) indent after column doc
  | append first second =>
    let (before, middle) := pieces width flat indent (second.lead after) column first
    let (behind, last) := pieces width flat indent after middle second
    (before ++ behind, last)

/-- The text of a document at a width. -/
def render (doc : Doc) (width : Nat) : String :=
  String.join ((pieces width false 0 0 0 doc).1.map Piece.toText)

end Doc

end PredictiveParsing
