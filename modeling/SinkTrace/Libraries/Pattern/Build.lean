import SinkTrace.Libraries.Pattern.Basic

/-!
Building patterns in a simple form: neighbouring characters make one text, a sequence holds no
sequence and a choice no choice, choices between characters are sets, and what all alternatives
start with stands in front of them.
-/

namespace SinkTrace.Pattern

/-- A set of no character never matches, and a set of one character is a text. -/
def ofSet (s : CharSet) : Pattern :=
  match s.ranges with
  | [] => never
  | [(low, high)] => if low = high then text [Char.ofNat low] else char s
  | _ => char s

/-- A text in front of a pattern. -/
def afterText (cs : List Char) : Pattern → Pattern
  | text ds => text (cs ++ ds)
  | seq (text ds) q => seq (text (cs ++ ds)) q
  | q => if cs.isEmpty then q else seq (text cs) q

/-- One after the other, where `q` is in simple form. -/
def followedBy : Pattern → Pattern → Pattern
  | text cs, q => afterText cs q
  | seq a b, q => a.followedBy (b.followedBy q)
  | p, q => if q = empty then p else seq p q

def sequence (ps : List Pattern) : Pattern := ps.foldr followedBy empty

/-- The parts of a sequence. -/
def parts : Pattern → List Pattern
  | seq p q => p :: q.parts
  | p => [p]

def alternatives : Pattern → List Pattern
  | alt p q => p :: q.alternatives
  | p => [p]

def isSeq : Pattern → Bool
  | seq _ _ => true
  | _ => false

/-- The character of a text of one character. -/
def single? : Pattern → Option Char
  | text [c] => some c
  | _ => none

def set? : Pattern → Option CharSet
  | never => some .none
  | char s => some s
  | _ => none

/-- One of the patterns, none of which is a choice. -/
def oneOf (ps : List Pattern) : Pattern :=
  match ps.mapM single?, ps.mapM set? with
  | some cs, _ => ofSet (.ofChars (cs.map fun c => (c, c)))
  | none, some ss => ofSet (.unions ss)
  | none, none =>
    match ps.reverse with
    | [] => never
    | p :: rest => rest.foldl (fun q p => alt p q) p

/-- What both lists start with. -/
def commonStart : List Pattern → List Pattern → List Pattern
  | p :: ps, q :: qs => if p = q then p :: commonStart ps qs else []
  | _, _ => []

/-- What all of the sequences start with. -/
def sharedStart (ps : List Pattern) : List Pattern :=
  match ps.map parts with
  | [] => []
  | first :: rest => if ps.all isSeq then rest.foldl commonStart first else []

/-- One of the patterns. -/
def choice (ps : List Pattern) : Pattern :=
  match ps.flatMap alternatives with
  | [p] => p
  | all =>
    let start := sharedStart all
    if start.isEmpty then oneOf all
    else
      let ends := all.map fun p => sequence (p.parts.drop start.length)
      sequence (start ++ [oneOf (ends.flatMap alternatives)])

/-- Only the empty text can match. -/
def isBlank : Pattern → Bool
  | never | char _ => false
  | text cs => cs.isEmpty
  | assert _ => true
  | group p | repeated p _ _ => p.isBlank
  | seq p q | alt p q => p.isBlank && q.isBlank

/-- A repetition; once is enough for what matches the empty text only. -/
def times (p : Pattern) (least : Nat) (most : Option Nat) : Pattern :=
  let (least, most) :=
    if p.isBlank then (min least 1, some (min (most.getD 1) 1)) else (least, most)
  if most = some 0 then empty
  else if least = 1 ∧ most = some 1 then p
  else repeated p least most

end SinkTrace.Pattern
