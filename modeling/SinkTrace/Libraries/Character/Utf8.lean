import SinkTrace.Libraries.CharSet

/-!
The bytes of characters. The characters of a range are encoded by a few sequences of ranges of
bytes, each of which stands for all combinations of bytes from its ranges.
-/

namespace SinkTrace.Utf8

/-- A range of bytes for each byte of a character. -/
abbrev ByteRanges := List (Nat × Nat)

/-- Characters by the number of bytes behind the first one, with what the first byte starts
from. -/
def lengths : List (Nat × Nat × Nat × Nat) :=
  [(0, 0, 0x7f, 0), (1, 0x80, 0x7ff, 0xc0), (2, 0x800, 0xd7ff, 0xe0), (2, 0xe000, 0xffff, 0xe0),
    (3, 0x10000, 0x10ffff, 0xf0)]

/-- The numbers from `low` to `high` with `n` digits in base 64 behind the first digit. -/
def blocks : Nat → Nat → Nat → List ByteRanges
  | 0, low, high => [[(low, high)]]
  | n + 1, low, high =>
    let unit := Nat.pow 64 (n + 1)
    let (a, x) := (low / unit, low % unit)
    let (b, y) := (high / unit, high % unit)
    if a = b then (blocks n x y).map ((a, a) :: ·)
    else
      let front := if x = 0 then [] else (blocks n x (unit - 1)).map ((a, a) :: ·)
      let back := if y = unit - 1 then [] else (blocks n 0 y).map ((b, b) :: ·)
      let first := if x = 0 then a else a + 1
      let last := if y = unit - 1 then b else b - 1
      let full := if first ≤ last then [(first, last) :: List.replicate (n + 1) (0, 63)] else []
      front ++ full ++ back

/-- The first byte starts from `base`, and the others from 128. -/
def toBytes (base : Nat) : ByteRanges → ByteRanges
  | [] => []
  | r :: rs => (r.1 + base, r.2 + base) :: rs.map fun r => (r.1 + 0x80, r.2 + 0x80)

def ofRange (low high : Nat) : List ByteRanges :=
  lengths.flatMap fun (n, least, greatest, base) =>
    let (low, high) := (max low least, min high greatest)
    if low ≤ high then (blocks n low high).map (toBytes base) else []

def ofSet (s : CharSet) : List ByteRanges := s.ranges.flatMap fun r => ofRange r.1 r.2

/-- The number of bytes of a character. -/
def width (code : Nat) : Nat :=
  if code ≤ 0x7f then 1 else if code ≤ 0x7ff then 2 else if code ≤ 0xffff then 3 else 4

/-- The number of different beginnings of the sequences, which are in ascending order and have at
most `depth` ranges. -/
def beginnings (depth : Nat) (rs : List ByteRanges) : Nat :=
  match depth with
  | 0 => 0
  | depth + 1 =>
    let groups := (rs.filter fun r => !r.isEmpty).splitBy fun r t => r.head? == t.head?
    (groups.map fun g => 1 + beginnings depth (g.map List.tail)).foldr (· + ·) 0

/-- Branches of a tree: ranges of bytes, each with the number of the tree behind it. -/
abbrev Branches := List ((Nat × Nat) × Nat)

/-- Adds the tree of the sequences to the different ones there are, and gives its number. The
tree of nothing but the end has the number 0. -/
def addTree (depth : Nat) (rs : List ByteRanges) (trees : List Branches) : Nat × List Branches :=
  match depth with
  | 0 => (0, trees)
  | depth + 1 =>
    let groups := (rs.filter fun r => !r.isEmpty).splitBy fun r t => r.head? == t.head?
    if groups.isEmpty then (0, trees)
    else
      let (branches, trees) := groups.foldl (fun (branches, trees) g =>
        let (n, trees) := addTree depth (g.map List.tail) trees
        (branches ++ (g.head?.bind List.head?).toList.map (·, n), trees)) ([], trees)
      match trees.findIdx? (· == branches) with
      | some i => (i + 1, trees)
      | none => (trees.length + 1, trees ++ [branches])

/-- The different trees of the sequences, each of which is part of the tree of all. -/
def trees (rs : List ByteRanges) : List Branches := (addTree 4 rs []).2

end SinkTrace.Utf8
