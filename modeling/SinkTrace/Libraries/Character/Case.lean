import SinkTrace.Libraries.CharSet

/-!
Letters that differ in their case only. Every character has a folded form, which is the same for
all cases of a letter; for most characters it is the character itself.
-/

namespace SinkTrace

/-- Codes at equal distances with the shift that leads to their folded forms. -/
structure CaseRun where
  start : Nat
  count : Nat
  stride : Nat
  shift : Nat
deriving Repr, DecidableEq, Inhabited

namespace CaseRun

/-- Runs given by the distance of their starts, the number of codes, the stride and the shift. -/
def ofNumbers (start : Nat) : List Nat → List CaseRun
  | distance :: count :: stride :: shift :: rest =>
    ⟨start + distance, count, stride, shift⟩ :: ofNumbers (start + distance) rest
  | _ => []

/-- Runs of codes that are folded to greater ones. -/
def upward : List CaseRun := ofNumbers 0 <| CharSet.numbers
  "1t q 1 w 38 1 1 lj b n 1 w o 7 1 w 14 o 2 1 1e 3 2 1 7 8 2 1 h n 2 1 1b 3 2 1 8 1 1 5u 1 2 2 1
  4 1 1 5q 1 1 1 1 2 2 1 5p 2 1 1 1 3 1 1 27 1 1 1 5m 1 1 1 5n 1 1 1 1 2 1 1 5p 1 1 1 5r 2 1 1
  5v 1 1 1 5t 1 1 1 1 4 1 1 5v 1 1 1 5x 2 1 1 5y 1 3 2 1 6 1 1 62 1 1 1 1 2 1 1 62 3 1 1 1 2 1 1
  62 1 1 1 1 2 2 1 61 2 2 2 1 4 1 1 63 1 1 1 1 4 1 1 1 8 1 1 2 1 1 1 1 2 1 1 2 1 1 1 1 2 1 1 2 1
  9 2 1 j 9 2 1 j 1 1 2 1 2 2 1 6 k 2 1 16 9 2 1 o 1 1 8bv 1 1 1 1 3 1 1 8bs 3 1 1 1 3 1 1 1x 1
  1 1 1z 1 5 2 1 73 1 1 38 17 2 2 1 6 1 1 1 9 1 1 38 7 1 1 12 2 3 1 11 4 1 1 1s 2 2 1 1r 3 h 1 w
  i 9 1 w v 1 1 1 d 1 1 8 9 c 2 1 v 1 1 1 3 1 1 1 6 g 1 28 g w 1 w 28 h 2 1 16 r 2 1 1i 1 1 f 1
  7 2 1 f 1c 2 1 2p 12 1 1c 29b 12 1 5ls 13 1 1 5ls 6 1 1 5ls 2bf 1 1 r7n ag 23 2 1 4g 1c 2 1 ia
  1 1 s 1a g 1 g z 1 1 1 mr q 1 q 1fu 1c 1 1c 2o 1 1 1 7 3 2 1 b 1 1 1 3 1 1 1 b 1e 2 1 2z 2 2 1
  7 1 1 1 nym n 2 1 1s e 2 1 4i 7 2 1 g v 2 1 1z 2 2 1 5 5 2 1 d 1 1 1 5 2 2 1 6 a 2 1 t 1 1 ps
  1 8 2 1 j 2 2 1 9 1 1 1 6 2 2 1 v 1 1 1 h7w q 1 w yn 14 1 14 4w 10 1 14 5c b 1 13 c f 1 13 g 7
  1 13 8 2 1 13 1d8 1f 1 1s 2e8 w 1 w gww w 1 w o8w y 1 y"

/-- Runs of codes that are folded to smaller ones. -/
def downward : List CaseRun := ofNumbers 0 <| CharSet.numbers
  "ag 1 1 3d 7 1 1 7g 3b 1 1 2p 1 1 1 1k 15 1 1 3m t 1 1 4j 6 1 1 5f b1 1 1 u 1 1 1 p 4 1 1 f 1 1
  1 m q 1 1 1i 1 1 1 1c 3 1 1 1o 1 1 1 1s 4 1 1 7 4 3 1 3m 35n 6 1 8 1oo 1 1 4su 1 1 1 4st 1 1 1
  4sk 1 2 1 4si 2 1 1 4sj 1 1 1 4sc 1 1 1 4ro 9 17 1 2bk 19 3 1 2bk da 1 1 1m 3 1 1 5vj 2y 8 1 8
  g 6 1 8 g 8 1 8 g 8 1 8 g 6 1 8 h 4 2 8 f 8 1 8 w 8 1 8 g 8 1 8 g 8 1 8 g 2 1 8 2 2 1 22 2 1 1
  9 2 1 1 5j9 a 4 1 2e 4 1 1 9 c 2 1 8 2 2 1 2s e 2 1 8 2 2 1 34 2 1 1 7 c 2 1 3k 2 2 1 3i 2 1 1
  9 8a 1 1 5st 4 1 1 6gv 1 1 1 6di 27r 1 1 8af 1 1 1 2xy 1 1 1 89z 9 1 1 8bg 1 1 1 8al 1 1 1 8bj
  1 1 1 8bi e 2 1 8cf oan 1 1 r9g g 1 1 wmg t 1 1 wn8 1 1 1 wnj 1 1 1 wnf 1 1 1 wn5 1 1 1 wn8 2
  1 1 wlu 1 1 1 wmi 1 1 1 wlx i 1 1 1c 1 1 1 wn7 1 1 1 raw q2 28 1 tzk"

def codes (r : CaseRun) : List Nat := (List.range r.count).map fun i => r.start + i * r.stride

end CaseRun

/-- The codes that are folded to others, with their folded forms. -/
def foldings : List (Nat × Nat) :=
  (CaseRun.upward.flatMap fun r => r.codes.map fun c => (c, c + r.shift))
    ++ CaseRun.downward.flatMap fun r => r.codes.map fun c => (c, c - r.shift)

/-- The cases of every letter that has several, grouped by their folded form. -/
def caseGroups : List (List Nat) :=
  let sorted := foldings.mergeSort fun a b => a.2 ≤ b.2
  (sorted.splitBy fun a b => a.2 == b.2).map fun group =>
    (group.head?.map Prod.snd).toList ++ group.map Prod.fst

namespace CharSet

/-- The set with all cases of its letters. -/
def withCases (s : CharSet) : CharSet :=
  let more := caseGroups.filter fun group => group.any s.hasCode
  ofRanges (s.ranges ++ more.flatten.map fun c => (c, c))

/-- The set with both cases of its letters of ASCII. -/
def withAsciiCases (s : CharSet) : CharSet :=
  let letters := (List.range 26).map fun i => [i + 'A'.toNat, i + 'a'.toNat]
  let more := letters.filter fun group => group.any s.hasCode
  ofRanges (s.ranges ++ more.flatten.map fun c => (c, c))

end CharSet

end SinkTrace
