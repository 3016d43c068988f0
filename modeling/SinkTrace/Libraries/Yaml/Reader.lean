import SinkTrace.Libraries.Yaml.Token

/-!
Reading documents. A node is a scalar or a collection, perhaps with a name by which it can be
repeated further on, and what is left out between the marks of a collection is null. At most four
calls are made one inside the other for a token, so fuel of four times their number suffices.
-/

namespace SinkTrace.Yaml

structure Reading where
  tokens : List Token
  /-- Nodes by name, last one first. -/
  anchors : List (List Char × Yaml) := []
deriving Repr, Inhabited

namespace Reading

def drop (r : Reading) (n : Nat) : Reading := { r with tokens := r.tokens.drop n }

/-- Whether one of these tokens comes next. -/
def isAt (r : Reading) (ts : List Token) : Bool := r.tokens.head?.any ts.contains

end Reading

/-- What precedes a node: a name and a tag, in either order. -/
structure Properties where
  anchor : Option (List Char) := none
  /-- A tag, and whether it is the one of null. -/
  tag : Option Bool := none
deriving Repr, DecidableEq, Inhabited

namespace Properties

def take : List Token → Properties × List Token
  | .anchor a :: .tag t :: rest | .tag t :: .anchor a :: rest => (⟨some a, some t⟩, rest)
  | .anchor a :: rest => (⟨some a, none⟩, rest)
  | .tag t :: rest => (⟨none, some t⟩, rest)
  | rest => ({}, rest)

def isEmpty (p : Properties) : Bool := p.anchor.isNone && p.tag.isNone

/-- A scalar without quotes behind a tag is not null, unless the tag says that it is. -/
def resolve? (p : Properties) : Yaml → Option Yaml
  | .scalar .plain text =>
    match p.tag with
    | none => some (.scalar .plain text)
    | some false => some (.scalar .tagged text)
    | some true => if isNullText text then some (.scalar .plain text) else none
  | y => some y

/-- Completes a node. -/
def finish? (p : Properties) (y : Yaml) (r : Reading) : Option (Yaml × Reading) := do
  let y ← p.resolve? y
  match p.anchor with
  | none => some (y, r)
  | some name => some (y, { r with anchors := (name, y) :: r.anchors })

end Properties

/-- Keys are scalars. -/
def key? : Yaml → Option (List Char)
  | .scalar _ text => some text
  | _ => none

mutual

/-- A node. Only outside of brackets it may be laid out by indentation, and only behind a key it
may be a sequence that is not indented further than the key. -/
def node? (block behindKey : Bool) (fuel : Nat) (r : Reading) : Option (Yaml × Reading) :=
  match fuel with
  | 0 => none
  | fuel + 1 =>
    match r.tokens with
    | .alias name :: rest => (r.anchors.lookup name).map (·, { r with tokens := rest })
    | tokens => do
      let (p, tokens) := Properties.take tokens
      let r := { r with tokens }
      let (y, r) ← match tokens with
        | .scalar form text :: _ => some (.scalar form text, r.drop 1)
        | .seqStart :: _ => (seqItems? true fuel (r.drop 1)).map fun (ys, r) => (.seq ys, r)
        | .mapStart :: _ => (mapEntries? true fuel (r.drop 1)).map fun (es, r) => (.map es, r)
        | .blockEntry :: _ =>
          if behindKey then (levelItems? fuel r).map fun (ys, r) => (.seq ys, r) else none
        | .blockSeqStart :: _ =>
          if block then (blockItems? fuel (r.drop 1)).map fun (ys, r) => (.seq ys, r) else none
        | .blockMapStart :: _ =>
          if block then (blockEntries? fuel (r.drop 1)).map fun (es, r) => (.map es, r) else none
        | _ => if p.isEmpty then none else some (null, r)
      p.finish? y r

/-- A node, or null if one of these tokens comes next. -/
def nodeUnless? (stops : List Token) (block behindKey : Bool) (fuel : Nat) (r : Reading) :
    Option (Yaml × Reading) :=
  match fuel with
  | 0 => none
  | fuel + 1 => if r.isAt stops then some (null, r) else node? block behindKey fuel r

/-- The value behind a key, null if there is no colon. -/
def valueOf? (stops : List Token) (block : Bool) (fuel : Nat) (r : Reading) :
    Option (Yaml × Reading) :=
  match fuel with
  | 0 => none
  | fuel + 1 =>
    if r.isAt [.value] then nodeUnless? stops block block fuel (r.drop 1) else some (null, r)

/-- The items of a sequence that is indented, up to its end. -/
def blockItems? (fuel : Nat) (r : Reading) : Option (List Yaml × Reading) :=
  match fuel with
  | 0 => none
  | fuel + 1 =>
    match r.tokens with
    | .blockEntry :: _ => do
      let (y, r) ← nodeUnless? [.blockEntry, .blockEnd] true false fuel (r.drop 1)
      let (ys, r) ← blockItems? fuel r
      some (y :: ys, r)
    | .blockEnd :: _ => some ([], r.drop 1)
    | _ => none

/-- The items of a sequence that is not indented further than its key. -/
def levelItems? (fuel : Nat) (r : Reading) : Option (List Yaml × Reading) :=
  match fuel with
  | 0 => none
  | fuel + 1 =>
    match r.tokens with
    | .blockEntry :: _ => do
      let stops := [.blockEntry, .key, .value, .blockEnd]
      let (y, r) ← nodeUnless? stops true false fuel (r.drop 1)
      let (ys, r) ← levelItems? fuel r
      some (y :: ys, r)
    | _ => some ([], r)

/-- The entries of a mapping that is laid out by indentation, up to its end. -/
def blockEntries? (fuel : Nat) (r : Reading) : Option (List (List Char × Yaml) × Reading) :=
  match fuel with
  | 0 => none
  | fuel + 1 =>
    match r.tokens with
    | .key :: _ => do
      let stops := [.key, .value, .blockEnd]
      let (key, r) ← nodeUnless? stops true true fuel (r.drop 1)
      let (value, r) ← valueOf? stops true fuel r
      let (entries, r) ← blockEntries? fuel r
      some ((← key? key, value) :: entries, r)
    | .blockEnd :: _ => some ([], r.drop 1)
    | _ => none

/-- The items up to the closing bracket, with commas between them. A key with its value is a
mapping of one entry. -/
def seqItems? (first : Bool) (fuel : Nat) (r : Reading) : Option (List Yaml × Reading) :=
  match fuel with
  | 0 => none
  | fuel + 1 => do
    if !first && !r.isAt [.separator, .seqEnd] then none
    let r := if r.isAt [.separator] && !first then r.drop 1 else r
    if r.isAt [.seqEnd] then some ([], r.drop 1)
    else
      let (y, r) ← if r.isAt [.key] then do
          let (key, r) ← node? false false fuel (r.drop 1)
          let (value, r) ← valueOf? [.separator, .seqEnd] false fuel r
          some (.map [(← key? key, value)], r)
        else node? false false fuel r
      let (ys, r) ← seqItems? false fuel r
      some (y :: ys, r)

/-- The entries up to the closing brace, with commas between them. -/
def mapEntries? (first : Bool) (fuel : Nat) (r : Reading) :
    Option (List (List Char × Yaml) × Reading) :=
  match fuel with
  | 0 => none
  | fuel + 1 => do
    if !first && !r.isAt [.separator, .mapEnd] then none
    let r := if r.isAt [.separator] && !first then r.drop 1 else r
    if r.isAt [.mapEnd] then some ([], r.drop 1)
    else
      let stops := [.separator, .mapEnd]
      let (key, value, r) ← if r.isAt [.key] then do
          let (key, r) ← nodeUnless? (.value :: stops) false false fuel (r.drop 1)
          let (value, r) ← valueOf? stops false fuel r
          some (key, value, r)
        else (node? false false fuel r).map fun (key, r) => (key, null, r)
      let (entries, r) ← mapEntries? false fuel r
      some ((← key? key, value) :: entries, r)

end

/-- The root of a document with or without a mark at its beginning. -/
def root? (tokens : List Token) : Option (Yaml × Reading) :=
  let fuel := 4 * tokens.length + 4
  match tokens with
  | [] => none
  | .version :: .documentStart :: rest | .documentStart :: rest =>
    if rest.isEmpty then some (null, ⟨[], []⟩)
    else nodeUnless? [.version, .documentStart, .documentEnd] true false fuel ⟨rest, []⟩
  | tokens => node? true false fuel ⟨tokens, []⟩

/-- Reads a text that holds one document. -/
def ofChars? (text : List Char) : Option Yaml := do
  let text := if text.head? = some '\ufeff' then text.drop 1 else text
  if !text.all isReadable then none
  let (y, r) ← root? (← tokens? text)
  if r.tokens.all (· == .documentEnd) then some y else none

def ofString? (text : String) : Option Yaml := ofChars? text.toList

end SinkTrace.Yaml
