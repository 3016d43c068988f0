import SinkTrace.Libraries.Yaml.Basic

/-!
The characters of documents: what separates words and lines, what may be read, what is written as
it is, and what the escapes in double quotes stand for.
-/

namespace SinkTrace.Yaml

def isBlank (c : Char) : Bool := c == ' ' || c == '\t'

def isBreak (c : Char) : Bool := "\n\r\x85\u2028\u2029".toList.contains c

/-- What a line break counts as: the separators of lines and of paragraphs are kept apart. -/
def lineBreak (c : Char) : Char := if c == '\u2028' || c == '\u2029' then c else '\n'

/-- Nothing, or a blank or a line break first. -/
def gapFirst : List Char → Bool
  | [] => true
  | c :: _ => isBlank c || isBreak c

/-- Marks of sequences and mappings in brackets. -/
def isBracketMark (c : Char) : Bool := ",[]\x7b\x7d".toList.contains c

/-- Characters that have a meaning of their own at the beginning of a value. -/
def isIndicator (c : Char) : Bool := isBracketMark c || "#&*!|>'\"%@\x60".toList.contains c

/-- Characters that a document may hold. -/
def isReadable (c : Char) : Bool :=
  let n := c.toNat
  n == 9 || n == 10 || n == 13 || (0x20 ≤ n && n ≤ 0x7e) || n == 0x85
    || (0xa0 ≤ n && n != 0xfffe && n != 0xffff)

/-- Characters that need no escape. -/
def isPrintable (c : Char) : Bool :=
  let n := c.toNat
  n == 10 || (0x20 ≤ n && n ≤ 0x7e) || (0xa0 ≤ n && n != 0xfeff && n != 0xfffe && n != 0xffff)

/-- The text begins like a mark of a document's bounds. -/
def startsMarker (text : List Char) : Bool :=
  "---".toList.isPrefixOf text || "...".toList.isPrefixOf text

/-! Escapes. -/

/-- Escapes of one letter. -/
def escapes : List (Char × Char) :=
  [('0', '\x00'), ('a', '\x07'), ('b', '\x08'), ('t', '\t'), ('n', '\n'), ('v', '\x0b'),
    ('f', '\x0c'), ('r', '\r'), ('e', '\x1b'), ('"', '"'), ('\\', '\\'), ('N', '\x85'),
    ('L', '\u2028'), ('P', '\u2029')]

/-- Escapes that are read and never written. -/
def readOnlyEscapes : List (Char × Char) :=
  [('\t', '\t'), (' ', ' '), ('/', '/'), ('_', '\xa0')]

/-- The upper case digits of a number in base 16. -/
def hexDigits (width code : Nat) : List Char :=
  (List.range width).reverse.map fun i =>
    let d := code / Nat.pow 16 i % 16
    if d < 10 then Char.ofNat ('0'.toNat + d) else Char.ofNat ('A'.toNat + d - 10)

/-- A character in double quotes. -/
def escape (c : Char) : List Char :=
  match escapes.find? (·.2 == c) with
  | some (letter, _) => ['\\', letter]
  | none =>
    if isPrintable c then [c]
    else if c.toNat ≤ 0xff then '\\' :: 'x' :: hexDigits 2 c.toNat
    else if c.toNat ≤ 0xffff then '\\' :: 'u' :: hexDigits 4 c.toNat
    else '\\' :: 'U' :: hexDigits 8 c.toNat

/-- The character with the code that the digits write. -/
def charOfHex? (digits : List Char) : Option Char := do
  let code ← digits? 16 digits
  if code.isValidChar then some (Char.ofNat code) else none

/-- The number of digits behind a letter that announces a code. -/
def codeWidth? : Char → Option Nat
  | 'x' => some 2
  | 'u' => some 4
  | 'U' => some 8
  | _ => none

/-- What the text behind a backslash stands for, and how many characters it takes. -/
def unescape? : List Char → Option (Char × Nat)
  | [] => none
  | letter :: rest =>
    match codeWidth? letter with
    | some width =>
      if rest.length < width then none
      else (charOfHex? (rest.take width)).map (·, width + 1)
    | none => ((escapes ++ readOnlyEscapes).find? (·.1 == letter)).map (·.2, 1)

end SinkTrace.Yaml
