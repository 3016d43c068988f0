import SinkTrace.Libraries.Character.Utf8
import SinkTrace.Libraries.Pattern.Build

/-!
How much room a pattern takes as an automaton over bytes. Every state has a fixed size, and so has
every transition of a state that has several of them. Patterns beyond a limit are refused, so that
a counted repetition cannot ask for any amount of memory. The automaton is built twice, to be run
forward and backward.
-/

namespace SinkTrace.Pattern

inductive Direction where
  | forward | backward
deriving Repr, DecidableEq, Inhabited

namespace Footprint

/-- Bytes of a state. -/
def state : Nat := 32

/-- Bytes of a way out of a state to any other one. -/
def exit : Nat := 4

/-- Bytes of a way out of a state by a range of bytes. -/
def step : Nat := 8

/-- Words split where one of them ends. -/
def runs : List (List Nat) → List (List (List Nat))
  | [] => [[]]
  | [] :: ws => [] :: runs ws
  | w :: ws =>
    match runs ws with
    | r :: rs => (w :: r) :: rs
    | [] => [[w]]

/-- A tree of the words, which have at most `depth` bytes. A node leads to its runs and to the
end of the words that end there. -/
def tree (depth : Nat) (words : List (List Nat)) : Nat :=
  match depth with
  | 0 => 0
  | depth + 1 =>
    let all := runs words
    let sizes := (all.filter (!·.isEmpty)).map fun run =>
      let firsts := (run.filterMap List.head?).eraseDups
      let below := firsts.map fun b =>
        let rest := (run.filter (·.head? == some b)).map List.tail
        if rest.all List.isEmpty then 0 else tree depth rest
      exit + state + (if firsts.length = 1 then 0 else step * firsts.length) + below.foldr (· + ·) 0
    state + exit * (all.length - 1) + sizes.foldr (· + ·) 0

def bytes (cs : List Char) : List Nat := (String.ofList cs).toUTF8.toList.map UInt8.toNat

/-- A choice between texts. -/
def ofTexts (d : Direction) (texts : List (List Char)) : Nat :=
  let words := texts.map fun cs => match d with
    | .forward => bytes cs
    | .backward => (bytes cs).reverse
  state + tree ((words.map List.length).max?.getD 0) words

def ofText (cs : List Char) : Nat :=
  if cs.isEmpty then state else state * cs.foldr (Utf8.width ·.toNat + ·) 0

def ofSet (d : Direction) (s : CharSet) : Nat :=
  if s.isAscii then 2 * state + step * s.ranges.length
  else
    let sequences := Utf8.ofSet s
    match d with
    | .forward =>
      state + (Utf8.trees sequences).foldr (state + step * ·.length + ·) 0
    | .backward => 2 * state + exit * sequences.length + state * Utf8.beginnings 4 sequences

end Footprint

/-- The room of a pattern, whether its last state is one with several ways out, so that one more
is added for what follows, and its room as one or more alternatives. -/
structure Footprint where
  size : Nat
  isOpen : Bool
  branch : Nat
deriving Repr, DecidableEq, Inhabited

namespace Footprint

/-- The way to what follows. -/
def link (f : Footprint) : Nat := if f.isOpen then exit else 0

def ofSize (size : Nat) (isOpen : Bool) : Footprint :=
  ⟨size, isOpen, size + exit + if isOpen then exit else 0⟩

/-- A counted repetition has a copy of the pattern for every time. The states of a pattern that
can match the empty text are kept apart from those of its repetition. -/
def times (f : Footprint) (consumes : Bool) : Nat → Option Nat → Footprint
  | 0, some 1 => ofSize (2 * state + 2 * exit + f.size + f.link) false
  | 0, none =>
    if consumes then ofSize (state + exit + f.size + f.link) true
    else ofSize (3 * state + 4 * exit + f.size + f.link) false
  | least, none => ofSize (least * (f.size + f.link) + state + exit) true
  | least, some most =>
    if least = most then ofSize (least * (f.size + f.link) - f.link) f.isOpen
    else
      let due := if least = 0 then state else least * (f.size + f.link)
      ofSize (due + state + (most - least) * (state + 2 * exit + f.size + f.link)) false

end Footprint

/-- The length of the shortest match in bytes, if it is known. -/
def leastLength? : Pattern → Option Nat
  | never => none
  | text cs => some cs.length
  | char _ => some 1
  | assert _ => some 0
  | group p => p.leastLength?
  | seq p q => return (← p.leastLength?) + (← q.leastLength?)
  | alt p q => return min (← p.leastLength?) (← q.leastLength?)
  | repeated p least _ => p.leastLength?.map (· * least)

def consumes (p : Pattern) : Bool := p.leastLength?.any (0 < ·)

/-- The characters of a text that is not empty. -/
def text? : Pattern → Option (List Char)
  | text cs => if cs.isEmpty then none else some cs
  | _ => none

def footprint (d : Direction) : Pattern → Footprint
  | never | assert _ => .ofSize Footprint.state false
  | text cs => .ofSize (Footprint.ofText cs) false
  | char s => .ofSize (Footprint.ofSet d s) false
  | group p =>
    let f := p.footprint d
    match d with
    | .forward => .ofSize (2 * Footprint.state + f.size + f.link) false
    | .backward => f
  | seq p q =>
    let f := p.footprint d
    let g := q.footprint d
    match d with
    | .forward => .ofSize (f.size + f.link + g.size) g.isOpen
    | .backward => .ofSize (g.size + g.link + f.size) f.isOpen
  | alt p q =>
    let branch := (p.footprint d).branch + (q.footprint d).branch
    match (alt p q).alternatives.mapM text? with
    | some texts => ⟨Footprint.ofTexts d texts, false, branch⟩
    | none => ⟨2 * Footprint.state + branch, false, branch⟩
  | repeated p least most => (p.footprint d).times p.consumes least most

/-- The room of the whole automaton, which also skips what is in front of a match. -/
def room (p : Pattern) (d : Direction) : Nat :=
  let f := p.footprint d
  let around := match d with
    | .forward => 3 * Footprint.state
    | .backward => Footprint.state
  f.size + f.link + around + 3 * Footprint.state + 4 * Footprint.exit

/-- The most bytes an automaton may take. -/
def roomLimit : Nat := 10 * Nat.pow 2 20

def fits (p : Pattern) : Bool := p.room .forward ≤ roomLimit && p.room .backward ≤ roomLimit

end SinkTrace.Pattern
