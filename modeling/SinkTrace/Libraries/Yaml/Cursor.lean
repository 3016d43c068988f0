import SinkTrace.Libraries.Yaml.Text

/-!
A place in a text, with its line and column, and the gaps between words: blanks on one line, or
line breaks with the indentation of the next line behind them.
-/

namespace SinkTrace.Yaml

structure Cursor where
  /-- What is left to be read. -/
  rest : List Char
  line : Nat := 0
  column : Nat := 0
  /-- Number of characters read so far. -/
  index : Nat := 0
deriving Repr, DecidableEq, Inhabited

namespace Cursor

/-- One character further; a carriage return and a line feed are one line break. -/
def next (c : Cursor) : Cursor :=
  match c.rest with
  | [] => c
  | '\r' :: '\n' :: rest => ⟨rest, c.line + 1, 0, c.index + 2⟩
  | a :: rest =>
    if isBreak a then ⟨rest, c.line + 1, 0, c.index + 1⟩
    else ⟨rest, c.line, c.column + 1, c.index + 1⟩

def skip : Nat → Cursor → Cursor
  | 0, c => c
  | n + 1, c => skip n c.next

def peek? (c : Cursor) : Option Char := c.rest.head?

def atBlank (c : Cursor) : Bool := c.peek?.any isBlank

def atBreak (c : Cursor) : Bool := c.peek?.any isBreak

/-- The line is this mark of a document's bounds, and perhaps more. -/
def atMark (mark : String) (c : Cursor) : Bool :=
  c.column == 0 && mark.toList.isPrefixOf c.rest && gapFirst (c.rest.drop mark.length)

def atMarker (c : Cursor) : Bool := c.atMark "---" || c.atMark "..."

/-- To the end of the line. -/
def skipLine (c : Cursor) : Cursor := c.skip (c.rest.takeWhile fun a => !isBreak a).length

end Cursor

/-- What lies between two words. -/
structure Gap where
  /-- Blanks, if there are no line breaks. -/
  blanks : List Char := []
  breaks : List Char := []
deriving Repr, DecidableEq, Inhabited

/-- What a gap contributes to a text of several lines: the first line feed is dropped in favour of
the following ones, and counts as a space if there is none. -/
def Gap.text (g : Gap) : List Char :=
  match g.breaks with
  | [] => g.blanks
  | ['\n'] => [' ']
  | '\n' :: breaks => breaks
  | breaks => breaks

/-- The gap at the cursor. Behind a line break, or from the beginning if `indented` says so, blanks
are indentation, and a tab in front of column `tabsFrom` is an error. -/
def Cursor.gap? (tabsFrom : Nat) (indented : Bool) (fuel : Nat) (g : Gap) (c : Cursor) :
    Option (Gap × Cursor) :=
  match fuel, c.rest with
  | 0, _ | _, [] => some (g, c)
  | fuel + 1, a :: _ =>
    if isBreak a then gap? tabsFrom true fuel ⟨[], g.breaks ++ [lineBreak a]⟩ c.next
    else if !isBlank a then some (g, c)
    else if !indented then gap? tabsFrom false fuel ⟨g.blanks ++ [a], g.breaks⟩ c.next
    else if a == '\t' && c.column < tabsFrom then none
    else gap? tabsFrom true fuel g c.next

/-- The gap at the cursor, where tabs may stand anywhere. -/
def Cursor.gap (indented : Bool) (c : Cursor) : Gap × Cursor :=
  (c.gap? 0 indented c.rest.length {}).getD ({}, c)

end SinkTrace.Yaml
