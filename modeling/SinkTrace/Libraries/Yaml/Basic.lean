/-!
Documents of scalars, sequences and mappings, and what a scalar without quotes stands for. A
scalar in quotes is always a text.

The notation belongs to a library, and the program knows it as a `TextFormat` only. The modules here
are the one that it is run with.
-/

namespace SinkTrace

/-- How a scalar is given, which decides what its text may stand for. -/
inductive ScalarForm where
  /-- Without quotes: null, a truth value, a number or a text. -/
  | plain
  /-- Without quotes behind a tag, which says that it is not null. -/
  | tagged
  /-- In quotes or as a block of lines: always a text. -/
  | quoted
deriving Repr, DecidableEq, Inhabited

inductive Yaml where
  | scalar (form : ScalarForm) (text : List Char)
  | seq (items : List Yaml)
  | map (entries : List (List Char × Yaml))
deriving Repr, Inhabited

namespace Yaml

/-! What scalars stand for. -/

def isNullText (text : List Char) : Bool :=
  ["", "~", "null", "Null", "NULL"].any (·.toList == text)

def boolOfText? (text : List Char) : Option Bool :=
  if ["true", "True", "TRUE"].any (·.toList == text) then some true
  else if ["false", "False", "FALSE"].any (·.toList == text) then some false
  else none

/-- Value of a digit in bases up to 16. -/
def digit? (c : Char) : Option Nat :=
  if '0' ≤ c ∧ c ≤ '9' then some (c.toNat - '0'.toNat)
  else if 'a' ≤ c ∧ c ≤ 'f' then some (c.toNat - 'a'.toNat + 10)
  else if 'A' ≤ c ∧ c ≤ 'F' then some (c.toNat - 'A'.toNat + 10)
  else none

/-- The number behind one more digit. -/
def addDigit? (base n : Nat) (c : Char) : Option Nat := do
  let d ← digit? c
  if d < base then some (n * base + d) else none

/-- The number that the digits write, if there is one digit at least. -/
def digits? (base : Nat) (text : List Char) : Option Nat :=
  if text.isEmpty then none else text.foldlM (addDigit? base) 0

/-- A number with the mark of its base in front. -/
def marked? : List Char → Option Nat
  | '0' :: 'x' :: rest => digits? 16 rest
  | '0' :: 'o' :: rest => digits? 8 rest
  | '0' :: 'b' :: rest => digits? 2 rest
  | _ => none

def dropPlus : List Char → List Char
  | '+' :: rest => rest
  | text => text

def dropSign : List Char → List Char
  | '+' :: rest | '-' :: rest => rest
  | text => text

/-- Digits behind a superfluous zero, which are no number. -/
def isPadded (text : List Char) : Bool :=
  match dropSign text with
  | '0' :: c :: rest => (c :: rest).all Char.isDigit
  | _ => false

/-- A natural number. -/
def natOfText? (text : List Char) : Option Nat :=
  (marked? (dropPlus text)).or (if isPadded text then none else digits? 10 (dropPlus text))

/-- Splits off an exponent. -/
def splitExponent (text : List Char) : List Char × Option (List Char) :=
  match text.dropWhile fun c => c != 'e' && c != 'E' with
  | [] => (text, none)
  | _ :: exponent => (text.takeWhile fun c => c != 'e' && c != 'E', some exponent)

/-- The exponent of ten, zero if there is none. -/
def exponent? : Option (List Char) → Option Int
  | none => some 0
  | some ('-' :: digits) => (digits? 10 digits).map fun n => -(n : Int)
  | some text => (digits? 10 (dropPlus text)).map Int.ofNat

/-- The least decimal that is too large to be a number: halfway behind the largest number of 53
bits below two to the power of 1024. -/
def overflow : Nat := Nat.pow 2 1024 - Nat.pow 2 970

/-- Whether `mantissa` times ten to the `exponent` is within the range of numbers. -/
def inRange (mantissa : Nat) (exponent : Int) : Bool :=
  let width : Int := (Nat.toDigits 10 mantissa).length + exponent
  if mantissa = 0 ∨ width < 300 then true
  else if 320 < width then false
  else if 0 ≤ exponent then mantissa * Nat.pow 10 exponent.toNat < overflow
  else mantissa < overflow * Nat.pow 10 (-exponent).toNat

/-- A decimal number without a sign, with or without a point and an exponent. -/
def isDecimal (text : List Char) : Bool :=
  let (number, exponent) := splitExponent text
  let whole := number.takeWhile (· != '.')
  let fraction := (number.dropWhile (· != '.')).drop 1
  match digits? 10 (whole ++ fraction), exponent? exponent with
  | some mantissa, some e => inRange mantissa (e - fraction.length)
  | _, _ => false

def isInfinity (text : List Char) : Bool := [".inf", ".Inf", ".INF"].any (·.toList == text)

def isNotANumber (text : List Char) : Bool := [".nan", ".NaN", ".NAN"].any (·.toList == text)

/-- A whole number in one of the marked bases that 128 bits hold. -/
def isMarked : List Char → Bool
  | '-' :: text => (marked? text).any (· ≤ Nat.pow 2 127)
  | text => (marked? (dropPlus text)).any (· < Nat.pow 2 128)

def isNumberText (text : List Char) : Bool :=
  isMarked text || isDecimal (dropSign text) || isInfinity (dropSign text) || isNotANumber text

/-- Whether the text without quotes would stand for something else than itself. -/
def isTyped (text : List Char) : Bool :=
  isNullText text || (boolOfText? text).isSome || isPadded text || isNumberText text

def null : Yaml := .scalar .plain []

end Yaml

end SinkTrace
