import SinkTrace.Libraries.Character.Case
import SinkTrace.Libraries.Pattern.Build

/-!
The state in which the notation of a pattern is read: what is left of the text, the flags in force
and the names of groups. In a verbose pattern blanks and comments are skipped between characters.
-/

namespace SinkTrace.Pattern

structure Flags where
  ignoreCase : Bool := false
  multiLine : Bool := false
  dotAll : Bool := false
  /-- Lines end also with a carriage return. -/
  carriageReturn : Bool := false
  /-- Classes and cases of all characters, and not those of ASCII only. -/
  unicode : Bool := true
  /-- Blanks and comments in the pattern are skipped. -/
  verbose : Bool := false
deriving Repr, DecidableEq, Inhabited

namespace Flags

/-- The set with all cases of its letters, if cases do not matter. -/
def fold (f : Flags) (s : CharSet) : CharSet :=
  if !f.ignoreCase then s else if f.unicode then s.withCases else s.withAsciiCases

def lineEnding (f : Flags) : LineEnding := if f.carriageReturn then .carriageReturn else .lineFeed

def wordChars (f : Flags) : WordChars := if f.unicode then .unicode else .ascii

end Flags

structure ReadState where
  rest : List Char
  flags : Flags := {}
  /-- Names of the groups so far. -/
  names : List String := []

abbrev Reader := StateT ReadState Option

def isSpace (c : Char) : Bool := Property.whiteSpace.contains c

/-- The rest behind blanks and comments, which end with the line. -/
def dropBlanks (inComment : Bool) : List Char → List Char
  | [] => []
  | c :: cs =>
    if inComment then dropBlanks (c != '\n') cs
    else if isSpace c then dropBlanks false cs
    else if c == '#' then dropBlanks true cs
    else c :: cs

/-- The characters up to the first one for which `p` does not hold, without blanks and comments
between them, and the rest. -/
def spanBlanks (p : Char → Bool) (inComment : Bool) : List Char → List Char × List Char
  | [] => ([], [])
  | c :: cs =>
    if inComment then spanBlanks p (c != '\n') cs
    else if isSpace c then spanBlanks p false cs
    else if c == '#' then spanBlanks p true cs
    else if p c then
      let (taken, rest) := spanBlanks p false cs
      (c :: taken, rest)
    else ([], c :: cs)

namespace Reader

def flags : Reader Flags := return (← get).flags

def peek : Reader (Option Char) := return (← get).rest.head?

def skip (n : Nat) : Reader Unit := modify fun s => { s with rest := s.rest.drop n }

def startsWith (text : String) : Reader Bool := return text.toList.isPrefixOf (← get).rest

/-- Skips the text if it comes next. -/
def accept (text : String) : Reader Bool := do
  if ← startsWith text then
    skip text.length
    return true
  else return false

/-- The text has to come next. -/
def expect (text : String) : Reader Unit := do
  if !(← accept text) then failure

def next : Reader Char := do
  match (← get).rest with
  | c :: rest =>
    modify fun s => { s with rest }
    return c
  | [] => failure

def takeWhile (p : Char → Bool) : Reader (List Char) := do
  let s ← get
  set { s with rest := s.rest.dropWhile p }
  return s.rest.takeWhile p

/-- In a verbose pattern, skips blanks and comments. -/
def skipBlanks : Reader Unit :=
  modify fun s => if s.flags.verbose then { s with rest := dropBlanks false s.rest } else s

/-- As `takeWhile`, but in a verbose pattern without blanks and comments. -/
def takeSpaced (p : Char → Bool) : Reader (List Char) := do
  let s ← get
  if s.flags.verbose then
    let (taken, rest) := spanBlanks p false s.rest
    set { s with rest }
    return taken
  else takeWhile p

def ofOption {α : Type} : Option α → Reader α
  | some a => return a
  | none => failure

end Reader

/-- What was read, with how deeply its parts are nested. -/
structure Nested (α : Type) where
  value : α
  depth : Nat := 0

/-- Several things as one, which nests them if they are not just one. -/
def Nested.gather {α : Type} (join : List α → α) : List (Nested α) → Nested α
  | [] => ⟨join [], 0⟩
  | [x] => x
  | xs => ⟨join (xs.map Nested.value), 1 + (xs.map Nested.depth).foldl max 0⟩

/-- The greatest depth of a pattern. -/
def nestLimit : Nat := 250

end SinkTrace.Pattern
