import SinkTrace.Libraries.Pattern.Escape

/-!
Classes between brackets: characters, ranges, escapes, named classes and further classes, joined by
set operations, which are applied from left to right.
-/

namespace SinkTrace.Pattern

/-- The named classes of ASCII. -/
def asciiSet? : String → Option CharSet
  | "alnum" => some (.ofChars [('0', '9'), ('A', 'Z'), ('a', 'z')])
  | "alpha" => some (.ofChars [('A', 'Z'), ('a', 'z')])
  | "ascii" => some .ascii
  | "blank" => some (.ofChars [('\t', '\t'), (' ', ' ')])
  | "cntrl" => some (.ofChars [('\x00', '\x1f'), ('\x7f', '\x7f')])
  | "digit" => some Reader.asciiDigits
  | "graph" => some (.ofChars [('!', '~')])
  | "lower" => some (.ofChars [('a', 'z')])
  | "print" => some (.ofChars [(' ', '~')])
  | "punct" => some (.ofChars [('!', '/'), (':', '@'), ('[', '\x60'), ('\x7b', '~')])
  | "space" => some Reader.asciiSpace
  | "upper" => some (.ofChars [('A', 'Z')])
  | "word" => some asciiWord
  | "xdigit" => some (.ofChars [('0', '9'), ('A', 'F'), ('a', 'f')])
  | _ => none

/-- A named class such as `[:alpha:]`: whether it is denied, its set and the rest of the text. -/
def asciiClass? : List Char → Option (Bool × CharSet × List Char)
  | '[' :: ':' :: rest =>
    let (negated, rest) := match rest with
      | '^' :: rest => (true, rest)
      | rest => (false, rest)
    match rest.dropWhile (· != ':') with
    | ':' :: ']' :: after =>
      (asciiSet? (String.ofList (rest.takeWhile (· != ':')))).map (negated, ·, after)
    | _ => none
  | _ => none

/-- The first character of the text that is no blank; what is behind the mark of a comment
counts. -/
def afterBlanks? (rest : List Char) : Option Char :=
  match rest.dropWhile isSpace with
  | '#' :: more => (more.dropWhile isSpace).head?
  | more => more.head?

inductive SetOperation where
  | inter | difference | symmetricDifference
deriving Repr, DecidableEq, Inhabited

def SetOperation.eval : SetOperation → CharSet → CharSet → CharSet
  | inter => .inter
  | difference => .difference
  | symmetricDifference => .symmetricDifference

/-- What was read of a class: the operation that is due with its left side, and the members since
then. -/
structure ClassState where
  pending : Option (SetOperation × Nested CharSet) := none
  members : List (Nested CharSet) := []

namespace ClassState

/-- The set of what was read; `fold` adds cases to both sides of an operation. -/
def value (c : ClassState) (fold : CharSet → CharSet) : Nested CharSet :=
  let right := Nested.gather CharSet.unions c.members
  match c.pending with
  | none => right
  | some (op, left) =>
    ⟨op.eval (fold left.value) (fold right.value), 1 + max left.depth right.depth⟩

def add (c : ClassState) (s : Nested CharSet) : ClassState := { c with members := s :: c.members }

end ClassState

namespace Reader

/-- A character in a class. -/
def classChar (c : Char) : Reader Char := do
  if !(← flags).unicode && 128 ≤ c.toNat then failure
  return c

/-- One member of a class: a character, or a set that cannot start or end a range. -/
def classItem : Reader (Char ⊕ CharSet) := do
  match ← next with
  | '\\' =>
    match ← escape with
    | .literal c => return .inl (← classChar c)
    | .set s => return .inr s
    | .assert _ => failure
  | c => return .inl (← classChar c)

/-- Whether a dash comes next that stands for a range: it stands for itself in front of the
closing bracket and in front of another dash. -/
def atRange : Reader Bool := do
  let s ← get
  match s.rest with
  | '-' :: rest =>
    let following := if s.flags.verbose then afterBlanks? rest else rest.head?
    return following != some ']' && following != some '-'
  | _ => return false

/-- A member of a class or a range of characters. -/
def classRange : Reader CharSet := do
  let first ← classItem
  skipBlanks
  if ← atRange then
    skip 1
    skipBlanks
    match first, ← classItem with
    | .inl low, .inl high =>
      if high < low then failure
      return .range low.toNat high.toNat
    | _, _ => failure
  else
    match first with
    | .inl c => return .single c
    | .inr s => return s

/-- Dashes at the beginning of a class, which stand for themselves. -/
def leadingDashes (fuel : Nat) : Reader (List (Nested CharSet)) := do
  match fuel with
  | 0 => return []
  | fuel + 1 =>
    if ← accept "-" then
      skipBlanks
      return ⟨.single '-', 0⟩ :: (← leadingDashes fuel)
    else return []

/-- Members at the beginning of a class: dashes, or else a closing bracket, which stands for
itself there. -/
def leadingMembers (fuel : Nat) : Reader (List (Nested CharSet)) := do
  let dashes ← leadingDashes fuel
  if dashes.isEmpty && (← accept "]") then return [⟨.single ']', 0⟩] else return dashes

def operation? : Reader (Option SetOperation) := do
  if ← accept "&&" then return some .inter
  else if ← accept "--" then return some .difference
  else if ← accept "~~" then return some .symmetricDifference
  else return none

mutual

/-- A class behind its opening bracket. -/
def bracketed (fuel : Nat) : Reader (Nested CharSet) := do
  match fuel with
  | 0 => failure
  | fuel + 1 =>
    skipBlanks
    let negated ← accept "^"
    skipBlanks
    let inner ← members fuel { members := ← leadingMembers fuel }
    return ⟨← foldAndNegate negated inner.value, inner.depth + 1⟩

/-- The members of a class up to its closing bracket. -/
def members (fuel : Nat) (c : ClassState) : Reader (Nested CharSet) := do
  match fuel with
  | 0 => failure
  | fuel + 1 =>
    skipBlanks
    let f ← flags
    if ← accept "]" then return c.value f.fold
    match ← operation? with
    | some op => members fuel { pending := some (op, c.value f.fold) }
    | none =>
      let s ← get
      match asciiClass? s.rest with
      | some (negated, found, rest) =>
        set { s with rest }
        members fuel (c.add ⟨← foldAndNegate negated found, 0⟩)
      | none =>
        if ← accept "[" then members fuel (c.add (← bracketed fuel))
        else members fuel (c.add ⟨← classRange, 0⟩)

end

end Reader

end SinkTrace.Pattern
