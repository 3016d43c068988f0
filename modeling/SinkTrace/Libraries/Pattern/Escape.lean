import SinkTrace.Libraries.Character.Age
import SinkTrace.Libraries.Character.Script
import SinkTrace.Libraries.Pattern.Notation

/-!
What stands behind a backslash in a pattern: characters by their codes, classes of characters by a
letter or by a property, and assertions.
-/

namespace SinkTrace.Pattern

/-- What an escape stands for. -/
inductive Escape where
  | literal (c : Char)
  | set (s : CharSet)
  | assert (a : Assertion)

def hexValue (c : Char) : Option Nat :=
  if c.isDigit then some (c.toNat - '0'.toNat)
  else if 'a' ≤ c ∧ c ≤ 'f' then some (c.toNat - 'a'.toNat + 10)
  else if 'A' ≤ c ∧ c ≤ 'F' then some (c.toNat - 'A'.toNat + 10)
  else none

/-- The character with the code that the digits write. -/
def hexChar? (digits : List Char) : Option Char := do
  if digits.isEmpty then none
  let values ← digits.mapM hexValue
  let code := values.foldl (fun n d => n * 16 + d) 0
  if code.isValidChar then some (Char.ofNat code) else none

/-- A name of a property in lower case and without separators. An `is` in front of a name means
nothing. -/
def normalName (name : List Char) : String :=
  let plain (cs : List Char) := String.ofList <|
    (cs.filter fun c => c.toNat < 128 && c != ' ' && c != '_' && c != '-').map Char.toLower
  match name with
  | 'i' :: 's' :: rest | 'I' :: 's' :: rest | 'i' :: 'S' :: rest | 'I' :: 'S' :: rest =>
    if plain rest = "c" then "isc" else plain rest
  | _ => plain name

/-- The characters of a property, category or script. -/
def named? (name : String) : Option CharSet :=
  let property := if ["cf", "sc", "lc"].contains name then none else Property.named? name
  (property.or (Category.named? name)).or ((Script.named? name).map Script.set)

/-- The characters for which a property has a value. -/
def valued? (property value : String) : Option CharSet :=
  match property with
  | "gc" | "generalcategory" => Category.named? value
  | "sc" | "script" => (Script.named? value).map Script.set
  | "scx" | "scriptextensions" => (Script.named? value).map Script.extended
  | "age" => Age.named? value
  | _ => none

/-- The text in front of the first occurrence of `mark` and behind it. -/
def splitAt? (mark : List Char) : List Char → Option (List Char × List Char)
  | [] => none
  | c :: cs =>
    if mark.isPrefixOf (c :: cs) then some ([], (c :: cs).drop mark.length)
    else (splitAt? mark cs).map fun (front, back) => (c :: front, back)

/-- The property between braces: whether it is denied, and its characters. -/
def property? (text : List Char) : Option (Bool × CharSet) :=
  let value (denied : Bool) : List Char × List Char → Option (Bool × CharSet) :=
    fun (name, value) => (valued? (normalName name) (normalName value)).map (denied, ·)
  match splitAt? ['!', '='] text, splitAt? [':'] text, splitAt? ['='] text with
  | some parts, _, _ => value true parts
  | none, some parts, _ | none, none, some parts => value false parts
  | none, none, none => (named? (normalName text)).map (false, ·)

namespace Reader

/-- The set with its cases, or what is not in it. Only a set of all characters can be
denied. -/
def foldAndNegate (negated : Bool) (s : CharSet) : Reader CharSet := do
  let f ← flags
  if negated && !f.unicode then failure
  return if negated then (f.fold s).complement else f.fold s

/-- A class by its letter, of all characters or of ASCII. -/
def letterSet (unicode ascii : CharSet) (negated : Bool) : Reader Escape := do
  if (← flags).unicode then return .set (if negated then unicode.complement else unicode)
  else if negated then failure
  else return .set ascii

/-- That many digits of a code. -/
def hexDigits : Nat → Reader (List Char)
  | 0 => return []
  | n + 1 => do
    let c ← next
    skipBlanks
    return c :: (← hexDigits n)

/-- A code of `width` digits, or of any number of digits between braces. Two digits write a byte
if the pattern is about ASCII, and only those of ASCII are texts. -/
def hexEscape (width : Nat) : Reader Escape := do
  skipBlanks
  if ← accept "\x7b" then
    let digits ← takeSpaced (· != '\x7d')
    expect "\x7d"
    return .literal (← ofOption (hexChar? digits))
  else
    let c ← ofOption (hexChar? (← hexDigits width))
    if width = 2 ∧ !(← flags).unicode ∧ 128 ≤ c.toNat then failure
    return .literal c

/-- A class of characters by a letter or by a property between braces. -/
def propertyEscape (negated : Bool) : Reader Escape := do
  if !(← flags).unicode then failure
  skipBlanks
  if ← accept "\x7b" then
    let name ← takeSpaced (· != '\x7d')
    expect "\x7d"
    let (denied, s) ← ofOption (property? name)
    return .set (← foldAndNegate (negated != denied) s)
  else
    let c ← next
    if c = '\\' then failure
    let s ← ofOption (named? (normalName [c]))
    return .set (← foldAndNegate negated s)

def wordPlace? : String → Option WordPlace
  | "start" => some .start
  | "end" => some .finish
  | "start-half" => some .startHalf
  | "end-half" => some .finishHalf
  | _ => none

def wordAssertion (place : WordPlace) : Reader Escape :=
  return .assert (.word place (← flags).wordChars)

/-- A word edge, which may be narrowed to one side of a word between braces. Other braces are
those of a repetition. -/
def edgeEscape : Reader Escape := do
  let before ← get
  if ← accept "\x7b" then
    let name ← takeSpaced fun c => c.isAlpha || c == '-'
    if name.isEmpty then
      if (← peek).isNone then failure
      set before
      wordAssertion .edge
    else
      expect "\x7d"
      wordAssertion (← ofOption (wordPlace? (String.ofList name)))
  else wordAssertion .edge

def asciiDigits : CharSet := .ofChars [('0', '9')]

/-- Tab, line feed, vertical tab, form feed, carriage return and space. -/
def asciiSpace : CharSet := .ofChars [('\t', '\r'), (' ', ' ')]

/-- The escape behind a backslash. Letters and digits without a meaning are refused. -/
def escape : Reader Escape := do
  match ← next with
  | 'd' => letterSet Category.decimalNumber.set asciiDigits false
  | 'D' => letterSet Category.decimalNumber.set asciiDigits true
  | 's' => letterSet Property.whiteSpace asciiSpace false
  | 'S' => letterSet Property.whiteSpace asciiSpace true
  | 'w' => letterSet Property.word asciiWord false
  | 'W' => letterSet Property.word asciiWord true
  | 'p' => propertyEscape false
  | 'P' => propertyEscape true
  | 'a' => return .literal '\x07'
  | 'f' => return .literal '\x0c'
  | 't' => return .literal '\t'
  | 'n' => return .literal '\n'
  | 'r' => return .literal '\r'
  | 'v' => return .literal '\x0b'
  | 'x' => hexEscape 2
  | 'u' => hexEscape 4
  | 'U' => hexEscape 8
  | 'A' => return .assert .textStart
  | 'z' => return .assert .textEnd
  | 'b' => edgeEscape
  | 'B' => wordAssertion .noEdge
  | '<' => wordAssertion .start
  | '>' => wordAssertion .finish
  | c => if c.isAlphanum ∨ 128 ≤ c.toNat then failure else return .literal c

end Reader

end SinkTrace.Pattern
