import SinkTrace.Libraries.Character.Property

/-!
Patterns over texts and whether one occurs in a text. A pattern is read character by character:
its derivative by a character is what remains to be matched after that character. Assertions look
at the characters on both sides of a position and consume none.

The notation belongs to a library, and the program knows it as a `PatternCompiler` only. The modules
here are the one that it is run with.
-/

namespace SinkTrace

/-- What makes up a word: letters of any kind, or those of ASCII only. -/
inductive WordChars where
  | unicode | ascii
deriving Repr, DecidableEq, Inhabited

/-- Letters, digits and the underscore of ASCII. -/
def asciiWord : CharSet := .ofChars [('0', '9'), ('A', 'Z'), ('_', '_'), ('a', 'z')]

def WordChars.set : WordChars → CharSet
  | unicode => Property.word
  | ascii => asciiWord

/-- Where a position stands with respect to words. The halves look at one side only. -/
inductive WordPlace where
  | edge | noEdge | start | finish | startHalf | finishHalf
deriving Repr, DecidableEq, Inhabited

def WordPlace.holds (before after : Bool) : WordPlace → Bool
  | edge => before != after
  | noEdge => before == after
  | start => !before && after
  | finish => before && !after
  | startHalf => !before
  | finishHalf => !after

/-- What ends a line: a line feed only, or also a carriage return, alone or before a line feed. -/
inductive LineEnding where
  | lineFeed | carriageReturn
deriving Repr, DecidableEq, Inhabited

inductive Assertion where
  | textStart
  | textEnd
  | lineStart (ending : LineEnding)
  | lineEnd (ending : LineEnding)
  | word (place : WordPlace) (chars : WordChars)
deriving Repr, DecidableEq, Inhabited

/-- Whether the assertion holds between two characters; at an end of the text there is none. A
line does not start or end between a carriage return and the line feed behind it. -/
def Assertion.holds (before after : Option Char) : Assertion → Bool
  | textStart => before.isNone
  | textEnd => after.isNone
  | lineStart .lineFeed => before.all (· == '\n')
  | lineEnd .lineFeed => after.all (· == '\n')
  | lineStart .carriageReturn =>
    before.all fun c => c == '\n' || (c == '\r' && after != some '\n')
  | lineEnd .carriageReturn =>
    after.all fun c => c == '\r' || (c == '\n' && before != some '\r')
  | word place chars =>
    place.holds (before.any chars.set.contains) (after.any chars.set.contains)

inductive Pattern where
  /-- Matches nothing. -/
  | never
  /-- Matches the characters one after the other. -/
  | text (chars : List Char)
  | char (set : CharSet)
  | assert (assertion : Assertion)
  /-- A part whose match can be told from the rest. -/
  | group (p : Pattern)
  | seq (p q : Pattern)
  | alt (p q : Pattern)
  /-- From `least` to `most` times, or any number of times from `least` on. -/
  | repeated (p : Pattern) (least : Nat) (most : Option Nat)
deriving Repr, DecidableEq, Inhabited

namespace Pattern

/-- Matches the empty text. -/
abbrev empty : Pattern := .text []

/-- Whether the empty text between the two characters matches. -/
def nullable (before after : Option Char) : Pattern → Bool
  | never | char _ => false
  | text cs => cs.isEmpty
  | assert a => a.holds before after
  | group p => p.nullable before after
  | seq p q => p.nullable before after && q.nullable before after
  | alt p q => p.nullable before after || q.nullable before after
  | repeated p least _ => least == 0 || p.nullable before after

/-- One after the other, without what never matches or matches the empty text only. -/
def andThen : Pattern → Pattern → Pattern
  | never, _ => never
  | text [], q => q
  | p, q => seq p q

/-- Whether `q` is one of the alternatives. -/
def offers (q : Pattern) : Pattern → Bool
  | alt a b => offers q a || offers q b
  | p => p = q

/-- Either of the two, each alternative once and without what never matches. -/
def orElse (p : Pattern) : Pattern → Pattern
  | never => p
  | alt a b => (p.orElse a).orElse b
  | q => if p = never then q else if offers q p then p else alt p q

/-- What remains to be matched after the character `c`. If nothing was enough for the repeated
part here, it was also enough for the times that are still due. -/
def derive (before : Option Char) (c : Char) : Pattern → Pattern
  | never | assert _ | text [] => never
  | text (d :: ds) => if c = d then text ds else never
  | char set => if set.contains c then empty else never
  | group p => p.derive before c
  | seq p q =>
    orElse (andThen (p.derive before c) q)
      (if p.nullable before (some c) then q.derive before c else never)
  | alt p q => orElse (p.derive before c) (q.derive before c)
  | repeated p least most =>
    if most = some 0 then never
    else
      andThen (p.derive before c)
        (repeated p (if p.nullable before (some c) then 0 else least - 1) (most.map (· - 1)))

/-- Whether `p` matches somewhere in the text, or `active` some beginning of it. -/
def occursFrom (p active : Pattern) (before : Option Char) : List Char → Bool
  | [] => (active.orElse p).nullable before none
  | c :: cs =>
    let current := active.orElse p
    current.nullable before (some c) || p.occursFrom (current.derive before c) (some c) cs

/-- Some part of the text matches. -/
def occursIn (p : Pattern) (text : String) : Bool := p.occursFrom never none text.toList

end Pattern

end SinkTrace
