import SinkTrace.Libraries.Yaml.Scalar

/-!
A document as a sequence of tokens. Collections that are laid out by indentation are opened and
closed by tokens of their own: a dash or a key further right than the collection around it opens
one, and a line further left closes it. That something is a key shows only at the colon behind it,
on the same line; the token for the key is then put in front of it.
-/

namespace SinkTrace.Yaml

inductive Token where
  | version | documentStart | documentEnd
  | blockSeqStart | blockMapStart | blockEnd | blockEntry
  | seqStart | seqEnd | mapStart | mapEnd | separator
  | key | value
  | anchor (name : List Char)
  | alias (name : List Char)
  /-- A tag, and whether it is the one of null. -/
  | tag (ofNull : Bool)
  | scalar (form : ScalarForm) (text : List Char)
deriving Repr, DecidableEq, Inhabited

/-- Where a key may have started. -/
structure KeyMark where
  /-- Number of tokens in front of it. -/
  position : Nat
  line : Nat
  column : Nat
  index : Nat
  /-- Nothing but a key can stand here. -/
  required : Bool
deriving Repr, DecidableEq, Inhabited

structure Scanner where
  cursor : Cursor
  /-- The tokens so far, last one first. -/
  tokens : List Token := []
  /-- Columns of the collections that are open by indentation, innermost first. -/
  indents : List Nat := []
  keyAllowed : Bool := true
  possibleKey : Option KeyMark := none
  /-- For every open bracket, the possible key around it. -/
  outerKeys : List (Option KeyMark) := []
deriving Repr, Inhabited

namespace Scanner

def inBrackets (s : Scanner) : Bool := !s.outerKeys.isEmpty

def indent? (s : Scanner) : Option Nat := s.indents.head?

/-- The least column of lines that continue a scalar. -/
def continued (s : Scanner) : Nat := s.indent?.elim 0 (· + 1)

def push (t : Token) (s : Scanner) : Scanner := { s with tokens := t :: s.tokens }

/-- Adds a token of `n` characters. -/
def emit (t : Token) (n : Nat) (s : Scanner) : Scanner :=
  { s with tokens := t :: s.tokens, cursor := s.cursor.skip n }

/-! Keys. -/

/-- The key that may have started here, unless it is too far away by now. -/
def KeyMark.current? (c : Cursor) : Option KeyMark → Option (Option KeyMark)
  | none => some none
  | some k =>
    if k.line < c.line ∨ k.index + 1024 < c.index then
      if k.required then none else some none
    else some (some k)

/-- Gives up possible keys that were not followed by a colon in time. -/
def dropStale? (s : Scanner) : Option Scanner := do
  return { s with
    possibleKey := ← KeyMark.current? s.cursor s.possibleKey
    outerKeys := ← s.outerKeys.mapM (KeyMark.current? s.cursor) }

/-- Gives up the possible key. -/
def dropKey? (s : Scanner) : Option Scanner :=
  if s.possibleKey.any KeyMark.required then none else some { s with possibleKey := none }

/-- Notes that a key may start here, if one is allowed. -/
def markKey? (s : Scanner) : Option Scanner :=
  if s.keyAllowed then do
    let c := s.cursor
    let required := !s.inBrackets && s.indent? == some c.column
    let s ← s.dropKey?
    return { s with possibleKey := some ⟨s.tokens.length, c.line, c.column, c.index, required⟩ }
  else some s

/-! Indentation. -/

/-- Opens a collection at this column if it is further right than the one around it. Its token
is put behind the first `position` tokens. -/
def openAt (t : Token) (column position : Nat) (s : Scanner) : Scanner :=
  if s.inBrackets || !s.indent?.all (· < column) then s
  else
    { s with
      indents := column :: s.indents
      tokens := s.tokens.insertIdx (s.tokens.length - position) t }

/-- Closes the collections further right than the column. -/
def closeTo (column : Nat) (s : Scanner) : Scanner :=
  if s.inBrackets then s
  else
    let closed := s.indents.takeWhile (column < ·)
    { s with
      indents := s.indents.drop closed.length
      tokens := List.replicate closed.length .blockEnd ++ s.tokens }

/-- Closes all collections that are open by indentation. -/
def closeAll (s : Scanner) : Scanner :=
  if s.inBrackets then s
  else
    { s with indents := [], tokens := List.replicate s.indents.length .blockEnd ++ s.tokens }

/-! Between tokens. -/

/-- Skips blanks, comments and line breaks. At the beginning of a line, and wherever else a key
could start, a tab is no blank. Outside of brackets a key may start on every new line. -/
def skipGap (fuel : Nat) (s : Scanner) : Scanner :=
  match fuel, s.cursor.rest with
  | 0, _ | _, [] => s
  | fuel + 1, c :: _ =>
    if c == ' ' || (c == '\t' && (s.inBrackets || !s.keyAllowed)) then
      skipGap fuel { s with cursor := s.cursor.next }
    else if c == '#' then skipGap fuel { s with cursor := s.cursor.skipLine }
    else if isBreak c then
      skipGap fuel { s with cursor := s.cursor.next, keyAllowed := s.keyAllowed || !s.inBrackets }
    else s

/-! Tokens. -/

/-- A mark of a document's bounds. -/
def marker? (t : Token) (s : Scanner) : Option Scanner := do
  let s ← s.closeAll.dropKey?
  return { s with keyAllowed := false }.emit t 3

/-- The version of the notation in front of a document. -/
def version? (s : Scanner) : Option Scanner := do
  let s ← s.closeAll.dropKey?
  let words := ((s.cursor.rest.takeWhile fun a => !isBreak a).takeWhile (· != '#')).splitBy
    fun a b => isBlank a == isBlank b
  match words.filter fun w => !w.any isBlank with
  | [name, number] =>
    if name == "%YAML".toList && (number == "1.1".toList || number == "1.2".toList) then
      some (push .version { s with keyAllowed := false, cursor := s.cursor.skipLine })
    else none
  | _ => none

def openBracket? (t : Token) (s : Scanner) : Option Scanner := do
  let s ← s.markKey?
  return { s with
    outerKeys := s.possibleKey :: s.outerKeys, possibleKey := none, keyAllowed := true }.emit t 1

def closeBracket? (t : Token) (s : Scanner) : Option Scanner := do
  let s ← s.dropKey?
  return { s with
    possibleKey := s.outerKeys.head?.join, outerKeys := s.outerKeys.tail
    keyAllowed := false }.emit t 1

def separator? (s : Scanner) : Option Scanner := do
  let s ← s.dropKey?
  return { s with keyAllowed := true }.emit .separator 1

/-- A dash. -/
def entry? (s : Scanner) : Option Scanner := do
  if !s.inBrackets && !s.keyAllowed then none
  let s ← (s.openAt .blockSeqStart s.cursor.column s.tokens.length).dropKey?
  return { s with keyAllowed := true }.emit .blockEntry 1

/-- A question mark in front of a key. -/
def key? (s : Scanner) : Option Scanner := do
  if !s.inBrackets && !s.keyAllowed then none
  let s ← (s.openAt .blockMapStart s.cursor.column s.tokens.length).dropKey?
  return { s with keyAllowed := !s.inBrackets }.emit .key 1

/-- A colon. -/
def value? (s : Scanner) : Option Scanner :=
  match s.possibleKey with
  | some k =>
    let s := { s with tokens := s.tokens.insertIdx (s.tokens.length - k.position) .key }
    let s := s.openAt .blockMapStart k.column k.position
    some ({ s with possibleKey := none, keyAllowed := false }.emit .value 1)
  | none =>
    if !s.inBrackets && !s.keyAllowed then none
    else
      let s := s.openAt .blockMapStart s.cursor.column s.tokens.length
      some ({ s with keyAllowed := !s.inBrackets }.emit .value 1)

/-- A name behind a mark, made of letters, digits, dashes and underscores. -/
def named? (t : List Char → Token) (s : Scanner) : Option Scanner := do
  let s ← s.markKey?
  let name := (s.cursor.rest.drop 1).takeWhile fun c => c.isAlphanum || c == '_' || c == '-'
  let ended (cs : List Char) := gapFirst cs || cs.head?.any ("?:,]\x7d%@\x60".toList.contains ·)
  if name.isEmpty || !ended (s.cursor.rest.drop (name.length + 1)) then none
  else some ({ s with keyAllowed := false }.emit (t name) (name.length + 1))

/-- Characters of tags. -/
def isTagChar (c : Char) : Bool := c.isAlphanum || ";/?:@&=+$.%!~*'()_-".toList.contains c

/-- A tag: a name behind one or two exclamation marks, or a full name in angle brackets. -/
def tag? (s : Scanner) : Option Scanner := do
  let s ← s.markKey?
  let rest := s.cursor.rest.drop 1
  let (name, ofNull) ← match rest with
    | '<' :: rest =>
      let name := rest.takeWhile fun c => isTagChar c || ",[]".toList.contains c
      if name.isEmpty || (rest.drop name.length).head? != some '>' then none
      else some ('<' :: name ++ ['>'], name == "tag:yaml.org,2002:null".toList)
    | '!' :: rest =>
      let name := rest.takeWhile isTagChar
      if name.isEmpty then none else some ('!' :: name, name == "null".toList)
    | rest =>
      let name := rest.takeWhile isTagChar
      if name.contains '!' then none else some (name, false)
  let left := rest.drop name.length
  if gapFirst left || (s.inBrackets && left.head? == some ',') then
    some ({ s with keyAllowed := false }.emit (.tag ofNull) (name.length + 1))
  else none

def quoted? (read : Nat → Cursor → Option (List Char × Cursor)) (s : Scanner) :
    Option Scanner := do
  let s ← s.markKey?
  let (text, cursor) ← read s.cursor.rest.length s.cursor.next
  return { s with keyAllowed := false, cursor }.push (.scalar .quoted text)

def block? (folded : Bool) (s : Scanner) : Option Scanner := do
  let s ← s.dropKey?
  let (text, cursor) ← Yaml.block? folded s.indent? s.cursor.next
  return { s with keyAllowed := true, cursor }.push (.scalar .quoted text)

def plain? (s : Scanner) : Option Scanner := do
  let s ← s.markKey?
  let (text, ended, cursor) ← Yaml.plain? s.inBrackets s.continued s.cursor
  return { s with keyAllowed := ended, cursor }.push (.scalar .plain text)

/-- The token at the cursor, which is at `c` and in front of `rest`. -/
def token? (c : Char) (rest : List Char) (s : Scanner) : Option Scanner :=
  let lone := gapFirst rest
  if s.cursor.column == 0 && c == '%' then s.version?
  else if s.cursor.atMark "---" then s.marker? .documentStart
  else if s.cursor.atMark "..." then s.marker? .documentEnd
  else if c == '[' then s.openBracket? .seqStart
  else if c == '\x7b' then s.openBracket? .mapStart
  else if c == ']' then s.closeBracket? .seqEnd
  else if c == '\x7d' then s.closeBracket? .mapEnd
  else if c == ',' then s.separator?
  else if c == '-' && lone then s.entry?
  else if c == '?' && (s.inBrackets || lone) then s.key?
  else if c == ':' && (s.inBrackets || lone) then s.value?
  else if c == '*' then s.named? .alias
  else if c == '&' then s.named? .anchor
  else if c == '!' then s.tag?
  else if c == '|' && !s.inBrackets then s.block? false
  else if c == '>' && !s.inBrackets then s.block? true
  else if c == '\'' then s.quoted? singleQuoted?
  else if c == '"' then s.quoted? doubleQuoted?
  else if startsPlain s.inBrackets (c :: rest) then s.plain?
  else none

/-- Reads tokens up to the end of the text. -/
def run? (fuel : Nat) (s : Scanner) : Option (List Token) :=
  match fuel with
  | 0 => none
  | fuel + 1 => do
    let s ← (s.skipGap s.cursor.rest.length).dropStale?
    match s.cursor.rest with
    | [] =>
      let s ← s.closeAll.dropKey?
      return s.tokens.reverse
    | c :: rest => run? fuel (← (s.closeTo s.cursor.column).token? c rest)

end Scanner

/-- The tokens of a text. -/
def tokens? (text : List Char) : Option (List Token) :=
  Scanner.run? (text.length + 1) { cursor := ⟨text, 0, 0, 0⟩ }

end SinkTrace.Yaml
