import SinkTrace.Config.Format
import SinkTrace.Libraries.Yaml.Printer
import SinkTrace.Libraries.Yaml.Reader

/-!
The notation as a text format: what its documents are read as, and how values are laid out in it.
-/

namespace SinkTrace.Yaml

/-! Reading. -/

/-- What a scalar is read as. Behind a tag it is never null, and in quotes it is a text only. -/
def scalarValue (form : ScalarForm) (text : List Char) : Scalar where
  text := String.ofList text
  isNull := form == .plain && isNullText text
  bool? := if form = .quoted then none else boolOfText? text
  nat? := if form = .quoted then none else (natOfText? text).filter (· < UInt64.size)

mutual

def document : Yaml → Document
  | scalar form text => .scalar (scalarValue form text)
  | seq items => .list (documents items)
  | map entries => .record (fields entries)

def documents : List Yaml → List Document
  | [] => []
  | item :: items => document item :: documents items

def fields : List (List Char × Yaml) → List (String × Document)
  | [] => []
  | (key, value) :: entries => (String.ofList key, document value) :: fields entries

end

theorem documents_eq_map (items : List Yaml) : documents items = items.map document := by
  induction items with
  | nil => rfl
  | cons item items ih => exact congrArg (_ :: ·) ih

theorem fields_eq_map (entries : List (List Char × Yaml)) :
    fields entries = entries.map fun (key, value) => (String.ofList key, value.document) := by
  induction entries with
  | nil => rfl
  | cons entry entries ih => exact congrArg (_ :: ·) ih

/-! Writing. -/

def ofString (s : String) : Yaml := ofText s.toList

mutual

def ofValue : Value → Yaml
  | .null => .scalar .plain "null".toList
  | .text s => ofString s
  | .nat n => .scalar .plain (Nat.toDigits 10 n)
  | .bool b => .scalar .plain (if b then "true" else "false").toList
  | .texts ss => .seq (ss.map ofString)
  | .record fields => .map (entries fields)

def entries : List (String × Value) → List (List Char × Yaml)
  | [] => []
  | (name, value) :: fields => (name.toList, ofValue value) :: entries fields

end

theorem entries_eq_map (fields : List (String × Value)) :
    entries fields = fields.map fun (name, value) => (name.toList, ofValue value) := by
  induction fields with
  | nil => rfl
  | cons field fields ih => exact congrArg (_ :: ·) ih

def format : TextFormat where
  read? text := (ofString? text).map document
  write value := (ofValue value).render

end SinkTrace.Yaml
