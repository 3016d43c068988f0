import SinkTrace.Decimal

/-!
JSON values and how records, variants and bounded numbers are written in them. A record is an
object, or the list of its fields in order; a variant without data is its name, and one with data
an object of one member.
-/

namespace SinkTrace

inductive Json where
  | null
  | bool (value : Bool)
  | number (value : Decimal)
  | str (text : String)
  | arr (items : List Json)
  | obj (members : List (String × Json))
deriving Repr, Inhabited

namespace Json

def nat (n : Nat) : Json := .number ⟨n, 0⟩

def int (n : Int) : Json := .number ⟨n, 0⟩

def ofOption {α : Type} (f : α → Json) : Option α → Json
  | none => .null
  | some a => f a

def list {α : Type} (f : α → Json) (as : List α) : Json := .arr (as.map f)

def str? : Json → Option String
  | .str s => some s
  | _ => none

def bool? : Json → Option Bool
  | .bool b => some b
  | _ => none

def arr? : Json → Option (List Json)
  | .arr items => some items
  | _ => none

def isNull : Json → Bool
  | .null => true
  | _ => false

def number? : Json → Option Decimal
  | .number d => some d
  | _ => none

/-- A number written as an integer between the bounds. -/
def intIn? (low high : Int) (j : Json) : Option Int := do
  let n ← (← j.number?).int?
  if low ≤ n ∧ n ≤ high then some n else none

/-- An integer that `bits` bits hold without a sign. -/
def word? (bits : Nat) (j : Json) : Option Nat :=
  (j.intIn? 0 (Int.pow 2 bits - 1)).map Int.toNat

/-- An integer that `bits` bits hold in two's complement. -/
def signed? (bits : Nat) (j : Json) : Option Int :=
  j.intIn? (-Int.pow 2 (bits - 1)) (Int.pow 2 (bits - 1) - 1)

def listOf? {α : Type} (f : Json → Option α) (j : Json) : Option (List α) := do
  (← j.arr?).mapM f

/-- The member of an object. -/
def member? (key : String) : Json → Option Json
  | .obj members => (members.find? (·.1 == key)).map Prod.snd
  | _ => none

/-- The member of an object; a null member counts as absent. -/
def present? (key : String) (j : Json) : Option Json :=
  match j.member? key with
  | some .null => none
  | found => found

/-- The fields of a record with these names, read from an object or from a list. -/
def record? (names : List String) : Json → Option (List (Option Json))
  | .obj members => some (names.map fun name => (members.find? (·.1 == name)).map Prod.snd)
  | .arr items =>
    if items.length ≤ names.length then
      some (items.map some ++ List.replicate (names.length - items.length) none)
    else none
  | _ => none

/-- A field that may be missing, but not malformed. -/
def orDefault {α : Type} (f : Json → Option α) (fallback : α) : Option Json → Option α
  | none => some fallback
  | some j => f j

/-- A field that may be missing or null. -/
def optional {α : Type} (f : Json → Option α) : Option Json → Option (Option α)
  | none | some .null => some none
  | some j => (f j).map some

/-- The name of a variant, and its data if it has some. -/
def variant? : Json → Option (String × Option Json)
  | .str name => some (name, none)
  | .obj [(name, .null)] => some (name, none)
  | .obj [(name, data)] => some (name, some data)
  | _ => none

def variant (name : String) (data : Json) : Json := .obj [(name, data)]

end Json

end SinkTrace
