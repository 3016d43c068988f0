import SinkTrace.Libraries.Yaml.Scalar

/-!
Writing documents. Mappings are indented by two, sequences stand below the key that they belong
to, and what is empty stays on its line. A text is written without quotes if it reads as itself,
as a block of lines if it holds line feeds, and in quotes otherwise.
-/

namespace SinkTrace.Yaml

/-! Texts. -/

/-- Whether a text without quotes could go on like this behind the character `before`. -/
def continuesPlain (before : Char) : List Char → Bool
  | [] => before != ' '
  | c :: rest =>
    isPrintable c && !isBreak c && !(c == ':' && gapFirst rest) && !(c == '#' && before == ' ')
      && continuesPlain c rest

/-- The text stands for itself without quotes. -/
def isPlain (text : List Char) : Bool :=
  !isTyped text && !startsMarker text && startsPlain false text && continuesPlain ' ' text

/-- A text as a scalar, with quotes where they are needed. -/
def ofText (text : List Char) : Yaml := .scalar (if isPlain text then .plain else .quoted) text

/-- Two characters that follow each other in the text. -/
def hasPair (p : Char → Char → Bool) (text : List Char) : Bool :=
  (text.zip text.tail).any fun (a, b) => p a b

/-- No blank stands in front of a line break, and all characters can be written as they are. -/
def isEven (text : List Char) : Bool :=
  text.all isPrintable && !hasPair (fun a b => a == ' ' && isBreak b) text

/-- The text can be written in single quotes. -/
def fitsSingle (text : List Char) : Bool :=
  isEven text && !hasPair (fun a b => isBreak a && b == ' ') text

/-- The text can be written as a block of lines. -/
def fitsBlock (text : List Char) : Bool := isEven text && text.getLast? != some ' '

/-- Puts the indentation in front of every line that is not empty; `fresh` says whether a line
begins here. -/
def indented (indent : Nat) (fresh : Bool) : List Char → List Char
  | [] => []
  | c :: rest =>
    if isBreak c then c :: indented indent true rest
    else List.replicate (if fresh then indent else 0) ' ' ++ c :: indented indent false rest

def escapeSingle (text : List Char) : List Char :=
  text.flatMap fun c => if c == '\'' then ['\'', '\''] else [c]

/-- A text in single quotes, of which further lines start at this column. -/
def single (indent : Nat) (text : List Char) : List Char :=
  let last := if text.getLast?.any isBreak then List.replicate indent ' ' else []
  '\'' :: indented indent false (escapeSingle text) ++ last ++ ['\'']

def double (text : List Char) : List Char := '"' :: text.flatMap escape ++ ['"']

/-- How the end of a block is marked: the line break behind it does not belong to the text, or
more than one does. -/
def endMark (text : List Char) : List Char :=
  match text.reverse with
  | [] => ['-']
  | [c] => if isBreak c then ['+'] else ['-']
  | c :: b :: _ => if !isBreak c then ['-'] else if isBreak b then ['+'] else []

/-- A text as a block of lines at this column, which is two more than that of its surroundings. -/
def literal (indent : Nat) (text : List Char) : List Char :=
  let mark := if gapFirst text then ['2'] else []
  '|' :: mark ++ endMark text ++ '\n' :: indented indent true text

/-- A text that does not stand for itself. -/
def quote (indent : Nat) (text : List Char) : List Char :=
  if text.contains '\n' then if fitsBlock text then literal indent text else double text
  else if fitsSingle text then single indent text
  else double text

def scalarText (indent : Nat) : ScalarForm → List Char → List Char
  | .quoted, text => quote indent text
  | _, text => text

/-! Documents. -/

/-- The text with a line break behind it, unless it ends with one. -/
def endLine (text : List Char) : List Char :=
  if text.getLast?.any isBreak then text else text ++ ['\n']

/-- The text of a value that stays on the line of its key, further lines at this column. -/
def inline? (indent : Nat) : Yaml → Option (List Char)
  | scalar form text => some (scalarText indent form text)
  | seq [] => some "[]".toList
  | map [] => some "\x7b\x7d".toList
  | _ => none

/-- A line at this column. -/
def line (indent : Nat) (text : List Char) : List Char :=
  List.replicate indent ' ' ++ endLine text

/-- A key, in quotes where they are needed. -/
def keyText (key : List Char) : List Char :=
  (if isPlain key then key else if fitsSingle key then single 0 key else double key) ++ [':']

mutual

/-- The lines of a value that starts at this column. -/
def write (indent : Nat) : Yaml → List Char
  | scalar form text => line indent (scalarText indent form text)
  | seq [] => line indent "[]".toList
  | map [] => line indent "\x7b\x7d".toList
  | seq (item :: items) => writeItems indent (item :: items)
  | map (entry :: entries) => writeEntries indent (entry :: entries)

/-- Items have their dash in place of the indentation of their first line. -/
def writeItems (indent : Nat) : List Yaml → List Char
  | [] => []
  | item :: items =>
    List.replicate indent ' ' ++ '-' :: ' ' :: (write (indent + 2) item).drop (indent + 2)
      ++ writeItems indent items

def writeEntries (indent : Nat) : List (List Char × Yaml) → List Char
  | [] => []
  | entry :: entries => writeEntry indent entry ++ writeEntries indent entries

def writeEntry (indent : Nat) : List Char × Yaml → List Char
  | (key, value) =>
    match value.inline? (indent + 2) with
    | some text => line indent (keyText key ++ ' ' :: text)
    | none => line indent (keyText key) ++ writeBelow indent value

/-- The lines of a value below its key. -/
def writeBelow (indent : Nat) : Yaml → List Char
  | seq items => writeItems indent items
  | map entries => writeEntries (indent + 2) entries
  | scalar form text => line (indent + 2) (scalarText (indent + 2) form text)

end

/-- The text of a document. -/
def render (y : Yaml) : String := String.ofList (y.write 0)

end SinkTrace.Yaml
