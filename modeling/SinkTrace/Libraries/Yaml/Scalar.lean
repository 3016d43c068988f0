import SinkTrace.Libraries.Yaml.Cursor

/-!
Reading scalars: without quotes, in single or double quotes, and as blocks of lines. Every step
consumes a character, so fuel of the length of the text suffices.
-/

namespace SinkTrace.Yaml

/-! Without quotes. -/

/-- Whether a scalar without quotes can start here; `inside` says whether brackets are open. -/
def startsPlain (inside : Bool) : List Char → Bool
  | [] => false
  | c :: rest =>
    if c == '-' then !gapFirst rest
    else if c == '?' || c == ':' then !inside && !gapFirst rest
    else !gapFirst [c] && !isIndicator c

/-- Whether a scalar without quotes ends in front of the character `c`. -/
def endsPlain (inside : Bool) (c : Char) (rest : List Char) : Bool :=
  gapFirst [c] || (c == ':' && gapFirst rest) || (inside && isBracketMark c)

/-- A colon that could be meant as the end of a key. -/
def isDoubtful (inside : Bool) (c : Char) (rest : List Char) : Bool :=
  inside && c == ':' && rest.head?.any fun a => isBracketMark a || a == '?'

/-- The characters up to the next gap or to the end of the scalar. -/
def takeWord? (inside : Bool) : List Char → Option (List Char)
  | [] => some []
  | c :: rest =>
    if isDoubtful inside c rest then none
    else if endsPlain inside c rest then some []
    else (takeWord? inside rest).map (c :: ·)

/-- The words of a scalar without quotes, of which lines at column `indent` or further right are
part; `gap` is what precedes. The last gap is left out, and it is told whether lines end in it. -/
def plainWords? (inside : Bool) (indent fuel : Nat) (gap : Gap) (c : Cursor) :
    Option (List Char × Bool × Cursor) :=
  match fuel with
  | 0 => none
  | fuel + 1 => do
    let done := some ([], !gap.breaks.isEmpty, c)
    if c.atMarker || c.peek? == some '#' || (!inside && c.column < indent) then done
    else
      let word ← takeWord? inside c.rest
      if word.isEmpty then done
      else
        let (between, c) ← (c.skip word.length).gap? indent false c.rest.length {}
        let (text, ended, c) ← plainWords? inside indent fuel between c
        some (gap.text ++ word ++ text, ended, c)

/-- The scalar without quotes at the cursor. -/
def plain? (inside : Bool) (indent : Nat) (c : Cursor) : Option (List Char × Bool × Cursor) := do
  let word ← takeWord? inside c.rest
  let (between, c) ← (c.skip word.length).gap? indent false c.rest.length {}
  let (text, ended, c) ← plainWords? inside indent (c.rest.length + 1) between c
  some (word ++ text, ended, c)

/-! In quotes. -/

/-- The text up to the closing single quote, where a quote is written twice. -/
def singleQuoted? (fuel : Nat) (c : Cursor) : Option (List Char × Cursor) :=
  match fuel with
  | 0 => none
  | fuel + 1 =>
    if c.atMarker then none
    else
      match c.rest with
      | [] => none
      | '\'' :: '\'' :: _ => (singleQuoted? fuel (c.skip 2)).map fun (t, c) => ('\'' :: t, c)
      | '\'' :: _ => some ([], c.next)
      | a :: _ =>
        if gapFirst [a] then
          let (gap, c) := c.gap false
          (singleQuoted? fuel c).map fun (t, c) => (gap.text ++ t, c)
        else (singleQuoted? fuel c.next).map fun (t, c) => (a :: t, c)

/-- The text up to the closing double quote. A backslash at the end of a line joins it to the
next one. -/
def doubleQuoted? (fuel : Nat) (c : Cursor) : Option (List Char × Cursor) :=
  match fuel with
  | 0 => none
  | fuel + 1 =>
    if c.atMarker then none
    else
      match c.rest with
      | [] => none
      | '"' :: _ => some ([], c.next)
      | '\\' :: rest =>
        if c.next.atBreak then
          let (gap, c) := c.next.next.gap true
          (doubleQuoted? fuel c).map fun (t, c) => (gap.breaks ++ t, c)
        else do
          let (a, width) ← unescape? rest
          let (t, c) ← doubleQuoted? fuel (c.skip (width + 1))
          some (a :: t, c)
      | a :: _ =>
        if gapFirst [a] then
          let (gap, c) := c.gap false
          (doubleQuoted? fuel c).map fun (t, c) => (gap.text ++ t, c)
        else (doubleQuoted? fuel c.next).map fun (t, c) => (a :: t, c)

/-! Blocks of lines. -/

/-- What becomes of the line breaks at the end of a block. -/
inductive Chomping where
  | strip | clip | keep
deriving Repr, DecidableEq, Inhabited

structure BlockHeader where
  /-- Line breaks between lines count as spaces. -/
  folded : Bool
  chomping : Chomping := .clip
  /-- Additional indentation of the lines, if it is given. -/
  increment : Option Nat := none
deriving Repr, DecidableEq, Inhabited

def chomping? : Char → Option Chomping
  | '+' => some .keep
  | '-' => some .strip
  | _ => none

/-- The indications behind the mark of a block, each at most once and in either order. -/
def BlockHeader.read? (h : BlockHeader) (fuel : Nat) (text : List Char) :
    Option (BlockHeader × Nat) :=
  match fuel, text with
  | 0, _ | _, [] => some (h, 0)
  | fuel + 1, a :: rest =>
    match chomping? a with
    | some k =>
      if h.chomping = .clip then
        ({ h with chomping := k }.read? fuel rest).map fun (h, n) => (h, n + 1)
      else some (h, 0)
    | none =>
      if a.isDigit && h.increment.isNone then
        if a == '0' then none
        else
          let h := { h with increment := some (a.toNat - '0'.toNat) }
          (h.read? fuel rest).map fun (h, n) => (h, n + 1)
      else some (h, 0)

/-- Skips the indentation of the next line of a block and the empty lines in front of it. Gives
their breaks and the widest indentation. A tab is no indentation. -/
def blockBreaks? (indent : Option Nat) (widest fuel : Nat) (c : Cursor) :
    Option (List Char × Nat × Cursor) :=
  match fuel with
  | 0 => some ([], widest, c)
  | fuel + 1 =>
    if indent.all (c.column < ·) && c.peek? == some ' ' then
      blockBreaks? indent (max widest (c.column + 1)) fuel c.next
    else if indent.all (c.column < ·) && c.peek? == some '\t' then none
    else
      match c.peek? with
      | some a =>
        if isBreak a then do
          let (breaks, widest, c) ← blockBreaks? indent widest fuel c.next
          some (lineBreak a :: breaks, widest, c)
        else some ([], widest, c)
      | none => some ([], widest, c)

/-- The lines of a block at this column. `first` is the break behind the previous line and `more`
are those of the empty lines behind it; `blank` says whether that line started with a blank. -/
def blockLines? (h : BlockHeader) (indent : Nat) (fuel : Nat) (blank : Bool)
    (first more : List Char) (c : Cursor) : Option (List Char × Cursor) :=
  match fuel with
  | 0 => none
  | fuel + 1 =>
    if c.column ≠ indent ∨ c.rest.isEmpty then
      match h.chomping with
      | .strip => some ([], c)
      | .clip => some (first, c)
      | .keep => some (first ++ more, c)
    else do
      let joint :=
        if h.folded && first == ['\n'] && !blank && !c.atBlank then
          if more.isEmpty then [' '] else []
        else first
      let line := c.rest.takeWhile fun a => !isBreak a
      let ended := c.skipLine
      let (more', _, c') ← blockBreaks? (some indent) 0 ended.rest.length ended.next
      let (text, c') ← blockLines? h indent fuel c.atBlank
        (ended.peek?.toList.map lineBreak) more' c'
      some (joint ++ more ++ line ++ text, c')

/-- The block behind its mark. `outer` is the column of the collection around it. -/
def block? (folded : Bool) (outer : Option Nat) (c : Cursor) : Option (List Char × Cursor) := do
  let (h, width) ← ({ folded } : BlockHeader).read? 2 c.rest
  let c := c.skip width
  let c := c.skip (c.rest.takeWhile isBlank).length
  let c := if c.peek? == some '#' then c.skipLine else c
  if !c.rest.isEmpty && !c.atBreak then none
  let c := c.next
  let least := max 1 (outer.elim 0 (· + 1))
  let indent := h.increment.map (outer.getD 0 + ·)
  let (breaks, widest, c) ← blockBreaks? indent 0 c.rest.length c
  blockLines? h (indent.getD (max widest least)) (c.rest.length + 1) false [] breaks c

end SinkTrace.Yaml
