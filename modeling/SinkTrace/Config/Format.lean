/-!
Text formats for documents of records. A format is a library: it writes values, and reads a text as
a document. What the fields of a record are, and what their values mean, is not up to the format.
-/

namespace SinkTrace

/-- A scalar as it is read: its text, and what it stands for if it was not given as a text. -/
structure Scalar where
  text : String
  isNull : Bool := false
  bool? : Option Bool := none
  /-- A natural number of at most 64 bits. -/
  nat? : Option Nat := none
deriving Repr, DecidableEq, Inhabited

/-- What is read. -/
inductive Document where
  | scalar (s : Scalar)
  | list (items : List Document)
  | record (fields : List (String × Document))
deriving Repr, Inhabited

/-- What is written. -/
inductive Value where
  | null
  | text (s : String)
  | nat (n : Nat)
  | bool (b : Bool)
  | texts (ss : List String)
  | record (fields : List (String × Value))
deriving Repr, Inhabited

/-- The values that are there, each under its name. -/
def fieldsOf {α : Type} (names : List String) (values : List (Option α)) : List (String × α) :=
  (names.zip values).filterMap fun (name, value) => value.map (name, ·)

namespace Document

def ofText (s : String) : Document := .scalar { text := s }

/-- The text of a scalar, whatever else it stands for. -/
def text? : Document → Option String
  | scalar s => some s.text
  | _ => none

def isNull : Document → Bool
  | scalar s => s.isNull
  | _ => false

def bool? : Document → Option Bool
  | scalar s => s.bool?
  | _ => none

/-- A natural number that `bits` bits hold. -/
def word? (bits : Nat) : Document → Option Nat
  | scalar s => s.nat?.filter (· < Nat.pow 2 bits)
  | _ => none

def word32? (d : Document) : Option UInt32 := (d.word? 32).map UInt32.ofNat

def word64? (d : Document) : Option UInt64 := (d.word? 64).map UInt64.ofNat

def listOf? {α : Type} (f : Document → Option α) : Document → Option (List α)
  | list items => items.mapM f
  | _ => none

/-- A value that may be absent or null. -/
def optional {α : Type} (f : Document → Option α) : Option Document → Option (Option α)
  | none => some none
  | some d => if d.isNull then some none else (f d).map some

/-- The values of the fields with these names, each of which may be given once and no other one at
all. -/
def record? (names : List String) : Document → Option (List (Option Document))
  | record fields =>
    let given := fields.map Prod.fst
    if given.all names.elem ∧ given.Nodup then
      some (names.map fun name => (fields.find? (·.1 == name)).map Prod.snd)
    else none
  | _ => none

end Document

namespace Value

mutual

/-- The document that stands for a value. -/
def document : Value → Document
  | null => .scalar { text := "null", isNull := true }
  | text s => .ofText s
  | nat n => .scalar { text := toString n, nat? := some n }
  | bool b => .scalar { text := if b then "true" else "false", bool? := some b }
  | texts ss => .list (ss.map .ofText)
  | record fields => .record (documents fields)

def documents : List (String × Value) → List (String × Document)
  | [] => []
  | (name, value) :: fields => (name, document value) :: documents fields

end

theorem documents_eq_map (fields : List (String × Value)) :
    documents fields = fields.map fun (name, value) => (name, value.document) := by
  induction fields with
  | nil => rfl
  | cons field fields ih => exact congrArg (_ :: ·) ih

end Value

/-- How values are written and documents are read. -/
structure TextFormat where
  read? : String → Option Document
  write : Value → String

/-! What is asked of a format. -/

/-- Control characters, line feeds among them. -/
def isControl (c : Char) : Bool := c.toNat < 0x20 || (0x7f ≤ c.toNat && c.toNat < 0xa0)

/-- The text holds no control character. -/
def IsClean (s : String) : Prop := ∀ c ∈ s.toList, isControl c = false

instance (s : String) : Decidable (IsClean s) := List.decidableBAll _ _

/-- A value without control characters, whose numbers 64 bits hold and whose records have fields of
these names, each once. -/
inductive Value.Clean (names : List String) : Value → Prop where
  | null : Clean names .null
  | text {s : String} (hs : IsClean s) : Clean names (.text s)
  | nat {n : Nat} (hn : n < UInt64.size) : Clean names (.nat n)
  | bool (b : Bool) : Clean names (.bool b)
  | texts {ss : List String} (hs : ∀ s ∈ ss, IsClean s) : Clean names (.texts ss)
  | record {fields : List (String × Value)} (hne : fields ≠ [])
      (hnames : ∀ e ∈ fields, e.1 ∈ names) (hdistinct : (fields.map Prod.fst).Nodup)
      (hvalues : ∀ e ∈ fields, Clean names e.2) : Clean names (.record fields)

/-- What the format writes for a clean record is read as the document that stands for it: a text
as a text, whatever else it looks like. -/
def TextFormat.Faithful (f : TextFormat) (names : List String) : Prop :=
  ∀ fields, (Value.record fields).Clean names →
    f.read? (f.write (.record fields)) = some (Value.record fields).document

end SinkTrace
