import SinkTrace.Libraries.Pattern.Bracket
import SinkTrace.Libraries.Pattern.Footprint

/-!
Reading patterns from their usual notation: alternatives, repetition, groups with names and flags,
classes, escapes and assertions. Look-around and back-references are refused, and so is everything
that is not well formed, nested too deeply or too large.
-/

namespace SinkTrace.Pattern

namespace Reader

/-- A number below two to the power of 32, with blanks around it. -/
def decimal : Reader Nat := do
  let _ ← takeWhile isSpace
  let digits ← takeSpaced Char.isDigit
  let _ ← takeWhile isSpace
  skipBlanks
  if digits.isEmpty then failure
  let n := digits.foldl (fun n d => n * 10 + (d.toNat - '0'.toNat)) 0
  if n < Nat.pow 2 32 then return n else failure

/-- Bounds of a counted repetition behind its opening brace. -/
def bounds : Reader (Nat × Option Nat) := do
  skipBlanks
  let least ← decimal
  if ← accept "\x7d" then return (least, some least)
  expect ","
  skipBlanks
  if ← accept "\x7d" then return (least, none)
  let most ← decimal
  expect "\x7d"
  if most < least then failure
  return (least, some most)

/-- How often the operator at the cursor repeats; a question mark behind it changes nothing about
what matches. -/
def repetition : Reader (Nat × Option Nat) := do
  let r ← match ← next with
    | '*' => pure (0, none)
    | '+' => pure (1, none)
    | '?' => pure (0, some 1)
    | _ =>
      let r ← bounds
      skipBlanks
      pure r
  let _ ← accept "?"
  return r

/-- Flags up to the character that ends them; a dash switches the following ones off. -/
def flagItems (on : Bool) (seen : List Char) : List Char → Flags → Option (Flags × List Char)
  | [], _ => none
  | c :: rest, f =>
    if c = ')' ∨ c = ':' then if seen.head? = some '-' then none else some (f, c :: rest)
    else if seen.elem c then none
    else
      match c with
      | '-' => flagItems false (c :: seen) rest f
      | 'i' => flagItems on (c :: seen) rest { f with ignoreCase := on }
      | 'm' => flagItems on (c :: seen) rest { f with multiLine := on }
      | 's' => flagItems on (c :: seen) rest { f with dotAll := on }
      | 'R' => flagItems on (c :: seen) rest { f with carriageReturn := on }
      | 'u' => flagItems on (c :: seen) rest { f with unicode := on }
      | 'x' => flagItems on (c :: seen) rest { f with verbose := on }
      | 'U' => flagItems on (c :: seen) rest f
      | _ => none

def isNameStart (c : Char) : Bool := c == '_' || Property.alphabetic.contains c

def isNameChar (c : Char) : Bool :=
  isNameStart c || c == '.' || c == '[' || c == ']' ||
    (Category.setOf Category.numbers).contains c

/-- A group name up to its closing bracket; names are not repeated. -/
def groupName : Reader Unit := do
  let name ← takeWhile (· != '>')
  expect ">"
  match name with
  | [] => failure
  | c :: cs =>
    if !isNameStart c || !cs.all isNameChar then failure
    let text := String.ofList name
    if (← get).names.elem text then failure
    modify fun s => { s with names := text :: s.names }

/-- What an opening parenthesis starts. -/
inductive Opening where
  | capture
  | group (flags : Flags)
  /-- Flags for the rest of the group around it. -/
  | directive (flags : Flags)

def opening : Reader Opening := do
  skipBlanks
  if !(← accept "?") then return .capture
  if (← startsWith "=") || (← startsWith "!") || (← startsWith "<=") || (← startsWith "<!") then
    failure
  if (← accept "P<") || (← accept "<") then
    groupName
    return .capture
  let s ← get
  match flagItems true [] s.rest s.flags with
  | some (flags, ':' :: rest) =>
    set { s with rest }
    return .group flags
  | some (flags, _ :: rest) =>
    if s.rest.head? = some ')' then failure
    set { s with rest }
    return .directive flags
  | _ => failure

/-- A character that stands for itself. Without all characters, only those of ASCII have
cases. -/
def literal (c : Char) : Reader Pattern := return .ofSet ((← flags).fold (.single c))

/-- Any character, of which line ends are no part unless the flags say so. -/
def dot : Reader Pattern := do
  let f ← flags
  if !f.unicode then failure
  let ends := if f.carriageReturn then CharSet.ofChars [('\n', '\n'), ('\r', '\r')]
    else .single '\n'
  return .ofSet (if f.dotAll then .all else ends.complement)

def lineStart : Reader Assertion := do
  let f ← flags
  return if f.multiLine then .lineStart f.lineEnding else .textStart

def lineEnd : Reader Assertion := do
  let f ← flags
  return if f.multiLine then .lineEnd f.lineEnding else .textEnd

/-- What matches a single character or none, apart from classes between brackets. -/
def primitive : Reader Pattern := do
  match ← next with
  | '\\' =>
    match ← escape with
    | .literal c => literal c
    | .set s => return .ofSet s
    | .assert a => return .assert a
  | '.' => dot
  | '^' => return .assert (← lineStart)
  | '$' => return .assert (← lineEnd)
  | c => literal c

mutual

/-- Alternatives up to the end of the group or of the pattern. -/
def alternatives (fuel : Nat) : Reader (List (Nested Pattern)) := do
  match fuel with
  | 0 => failure
  | fuel + 1 =>
    let first ← items fuel [] none
    if ← accept "|" then return first :: (← alternatives fuel) else return [first]

/-- The items of a sequence; `last` is what a repetition operator would apply to. -/
def items (fuel : Nat) (before : List (Nested Pattern)) (last : Option (Nested Pattern)) :
    Reader (Nested Pattern) := do
  match fuel with
  | 0 => failure
  | fuel + 1 =>
    skipBlanks
    let all := last.toList ++ before
    match ← peek with
    | none | some ')' | some '|' => return .gather sequence all.reverse
    | some '*' | some '+' | some '?' | some '\x7b' =>
      match last with
      | none => failure
      | some p =>
        let (least, most) ← repetition
        items fuel before (some ⟨p.value.times least most, p.depth + 1⟩)
    | some '(' =>
      skip 1
      let outer ← flags
      match ← opening with
      | .directive flags =>
        modify fun s => { s with flags }
        items fuel (⟨empty, 0⟩ :: all) none
      | .capture =>
        let inner ← grouped fuel outer
        items fuel all (some ⟨.group inner.value, inner.depth + 1⟩)
      | .group flags =>
        modify fun s => { s with flags }
        let inner ← grouped fuel outer
        items fuel all (some ⟨inner.value, inner.depth + 1⟩)
    | some '[' =>
      skip 1
      let s ← bracketed fuel
      items fuel all (some ⟨.ofSet s.value, s.depth⟩)
    | some _ => items fuel all (some ⟨← primitive, 0⟩)

/-- The inside of a group and its closing parenthesis, behind which the flags around the group
are in force again. -/
def grouped (fuel : Nat) (outer : Flags) : Reader (Nested Pattern) := do
  match fuel with
  | 0 => failure
  | fuel + 1 =>
    let inner ← alternatives fuel
    expect ")"
    modify fun s => { s with flags := outer }
    return .gather choice inner

end

end Reader

/-- Reads a pattern. Every few steps consume a character, so the fuel suffices. -/
def ofString? (text : String) : Option Pattern := do
  let (ps, s) ← (Reader.alternatives (4 * text.length + 4)).run { rest := text.toList }
  let p := Nested.gather choice ps
  if s.rest.isEmpty ∧ p.depth ≤ nestLimit ∧ p.value.fits then some p.value else none

/-- The test whether the pattern occurs in a text. -/
def compile (text : String) : Option (String → Bool) := (ofString? text).map occursIn

end SinkTrace.Pattern
