import SinkTrace.Json.Basic

/-!
JSON values as text. A number is written with as many places as it has, so that a fraction stays a
fraction even if it is zero.
-/

namespace SinkTrace

/-- The digits with a point in front of the last `places` ones. -/
def Decimal.text (d : Decimal) : String :=
  let sign := if d.mantissa < 0 then "-" else ""
  let digits := (toString d.mantissa.natAbs).toList
  if d.places = 0 then sign ++ String.ofList digits
  else
    let padded := List.replicate (d.places + 1 - digits.length) '0' ++ digits
    let whole := padded.length - d.places
    sign ++ String.ofList (padded.take whole) ++ "." ++ String.ofList (padded.drop whole)

namespace Json

/-- A character inside quotes. -/
def escaped (c : Char) : String :=
  if c = '"' then "\\\""
  else if c = '\\' then "\\\\"
  else if c.toNat < 0x20 then
    let digit n := Nat.digitChar (c.toNat / n % 16)
    String.ofList ['\\', 'u', '0', '0', digit 16, digit 1]
  else c.toString

def quoted (out : String) (text : String) : String :=
  (text.foldl (fun out c => out ++ escaped c) (out.push '"')).push '"'

mutual

/-- Writes a value behind `out`. -/
def writeTo (out : String) : Json → String
  | null => out ++ "null"
  | bool b => out ++ (if b then "true" else "false")
  | number d => out ++ d.text
  | str s => quoted out s
  | arr items => (writeItems (out.push '[') items).push ']'
  | obj members => (writeMembers (out.push '\x7b') members).push '\x7d'

def writeItems (out : String) : List Json → String
  | [] => out
  | [j] => writeTo out j
  | j :: js => writeItems ((writeTo out j).push ',') js

def writeMembers (out : String) : List (String × Json) → String
  | [] => out
  | [(key, j)] => writeTo ((quoted out key).push ':') j
  | (key, j) :: ms => writeMembers ((writeTo ((quoted out key).push ':') j).push ',') ms

end

/-- The text of a value, without blanks. -/
def render (j : Json) : String := writeTo "" j

end Json

end SinkTrace
