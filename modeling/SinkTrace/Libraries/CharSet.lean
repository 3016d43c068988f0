/-!
Sets of characters, as ranges of their codes. The ranges are in ascending order with gaps between
them, so that every set of codes has one form.
-/

namespace SinkTrace

structure CharSet where
  ranges : List (Nat × Nat)
deriving Repr, DecidableEq, Inhabited

namespace CharSet

/-- The greatest code. -/
def last : Nat := 0x10ffff

def none : CharSet := ⟨[]⟩

def all : CharSet := ⟨[(0, last)]⟩

def ascii : CharSet := ⟨[(0, 0x7f)]⟩

/-- The codes from `low` to `high`. -/
def range (low high : Nat) : CharSet := if low ≤ high then ⟨[(low, high)]⟩ else none

def single (c : Char) : CharSet := range c.toNat c.toNat

/-- The first range that does not end below the code decides. -/
def hasCode (s : CharSet) (code : Nat) : Bool :=
  (s.ranges.find? fun r => code ≤ r.2).any fun r => r.1 ≤ code

def contains (s : CharSet) (c : Char) : Bool := s.hasCode c.toNat

/-- Joins ranges in ascending order that overlap or touch each other. -/
def join : List (Nat × Nat) → List (Nat × Nat)
  | [] => []
  | r :: rs =>
    match join rs with
    | [] => [r]
    | t :: ts => if t.1 ≤ r.2 + 1 then (r.1, max r.2 t.2) :: ts else r :: t :: ts

/-- The codes of ranges in any order. -/
def ofRanges (rs : List (Nat × Nat)) : CharSet := ⟨join (rs.mergeSort fun r t => r.1 ≤ t.1)⟩

/-- The characters of ranges in any order. -/
def ofChars (rs : List (Char × Char)) : CharSet :=
  ofRanges (rs.map fun (low, high) => (low.toNat, high.toNat))

def union (s t : CharSet) : CharSet := ofRanges (s.ranges ++ t.ranges)

def unions (ss : List CharSet) : CharSet := ofRanges (ss.flatMap ranges)

/-- The codes from `start` on that are in none of the ranges. -/
def gaps (start : Nat) : List (Nat × Nat) → List (Nat × Nat)
  | [] => if start ≤ last then [(start, last)] else []
  | (low, high) :: rs =>
    if start < low then (start, low - 1) :: gaps (high + 1) rs else gaps (high + 1) rs

def complement (s : CharSet) : CharSet := ⟨gaps 0 s.ranges⟩

def inter (s t : CharSet) : CharSet := (s.complement.union t.complement).complement

def difference (s t : CharSet) : CharSet := s.inter t.complement

def symmetricDifference (s t : CharSet) : CharSet := (s.difference t).union (t.difference s)

/-- All characters are in ASCII. -/
def isAscii (s : CharSet) : Bool := s.ranges.all (·.2 ≤ 0x7f)

/-! Written sets. -/

/-- The value of a digit in base 36. -/
def digit (c : Char) : Nat := if c.isDigit then c.toNat - '0'.toNat else c.toNat - 'a'.toNat + 10

/-- The numbers in base 36 between blanks; `n` is what was read of the first one. -/
def numbersFrom (n : Option Nat) : List Char → List Nat
  | [] => n.toList
  | c :: rest =>
    if c.isWhitespace then n.toList ++ numbersFrom Option.none rest
    else numbersFrom (some (n.getD 0 * 36 + digit c)) rest

def numbers (text : String) : List Nat := numbersFrom Option.none text.toList

/-- Ranges given by the number of codes in front of each of them and by how many codes follow its
first one. -/
def rangesFrom (start : Nat) : List Nat → List (Nat × Nat)
  | gap :: more :: rest =>
    (start + gap, start + gap + more) :: rangesFrom (start + gap + more + 1) rest
  | _ => []

/-- The set of the runs that the text lists. -/
def ofRuns (text : String) : CharSet := ⟨rangesFrom 0 (numbers text)⟩

end CharSet

end SinkTrace
