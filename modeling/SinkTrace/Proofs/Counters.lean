import Mathlib.Algebra.Ring.Nat
import SinkTrace.Context

/-!
The counters of a context are words of 32 bits. Adding the counters of a callee stops at the largest
word, and keeping the larger counters stays below it. Counting one instruction or one call does not
stop there: the program stops instead. So counters never go down, and a run comes to its end, with
the counters at what was to be counted or at the largest word, unless something is counted singly
when a counter is full.
-/

namespace SinkTrace

/-- What can happen to one counter. -/
inductive CounterStep where
  | none
  | one
  | add (n : UInt32)
  | atLeast (n : UInt32)
deriving Repr, DecidableEq

namespace CounterStep

def advance? (n : UInt32) : CounterStep → Option UInt32
  | none => some n
  | one => nextWord? n
  | add k => some (saturatingAdd n k)
  | atLeast k => some (max n k)

/-- The same for a counter of any size. -/
def count (n : Nat) : CounterStep → Nat
  | none => n
  | one => n + 1
  | add k => n + k.toNat
  | atLeast k => max n k.toNat

def countAll (n : Nat) (ts : List CounterStep) : Nat := ts.foldl count n

/-- What is counted singly is counted before the count has come to the largest word. -/
def HasRoom : Nat → List CounterStep → Prop
  | _, [] => True
  | n, t :: ts => (t = one → n < largestWord.toNat) ∧ HasRoom (t.count n) ts

variable {n k : UInt32} {t : CounterStep} {ts : List CounterStep}

theorem toNat_le_largest (n : UInt32) : n.toNat ≤ largestWord.toNat := Nat.le_of_lt_succ n.toNat_lt

theorem toNat_lt_largest_iff : n.toNat < largestWord.toNat ↔ n ≠ largestWord := by
  have hn := toNat_le_largest n
  rw [Ne, ← UInt32.toNat_inj]
  omega

theorem toNat_saturatingAdd (a b : UInt32) :
    (saturatingAdd a b).toNat = min (a.toNat + b.toNat) largestWord.toNat := by
  unfold saturatingAdd UInt32.ofNatClamp
  split
  · rename_i h
    rw [UInt32.toNat_ofNatLT]
    exact (Nat.min_eq_left (Nat.le_of_lt_succ h)).symm
  · rename_i h
    have hle : largestWord.toNat ≤ a.toNat + b.toNat := Nat.le_of_succ_le (Nat.le_of_not_lt h)
    rw [UInt32.toNat_ofNatLT, Nat.min_eq_right hle]
    rfl

theorem toNat_max (a b : UInt32) : (max a b).toNat = max a.toNat b.toNat := by
  change (if a ≤ b then b else a).toNat = _
  split
  · rename_i h
    exact (Nat.max_eq_right (UInt32.le_iff_toNat_le.mp h)).symm
  · rename_i h
    exact (Nat.max_eq_left (Nat.le_of_not_le fun hle => h (UInt32.le_iff_toNat_le.mpr hle))).symm

theorem nextWord?_eq_some_iff : nextWord? n = some k ↔ n ≠ largestWord ∧ n + 1 = k := by
  unfold nextWord?
  split <;> simp [*]

/-- There is a next count exactly if there is room. -/
theorem isSome_advance?_iff :
    (t.advance? n).isSome = true ↔ (t = one → n.toNat < largestWord.toNat) := by
  cases t with
  | one =>
    rw [advance?, Option.isSome_iff_exists]
    simp [nextWord?_eq_some_iff, toNat_lt_largest_iff]
  | none | add | atLeast => exact iff_of_true rfl nofun

/-- A counter is what it should be, up to the largest word. -/
theorem toNat_advance? (h : t.advance? n = some k) :
    k.toNat = min (t.count n.toNat) largestWord.toNat := by
  have hn := toNat_le_largest n
  cases t with
  | none =>
    cases h
    exact (Nat.min_eq_left hn).symm
  | one =>
    obtain ⟨hne, rfl⟩ := nextWord?_eq_some_iff.mp h
    have hlt := toNat_lt_largest_iff.mpr hne
    have hsmall : n.toNat + 1 < 2 ^ 32 := Nat.succ_lt_succ hlt
    rw [count, Nat.min_eq_left hlt, UInt32.toNat_add]
    exact Nat.mod_eq_of_lt hsmall
  | add k =>
    cases h
    exact toNat_saturatingAdd n k
  | atLeast k =>
    cases h
    rw [toNat_max, count, Nat.min_eq_left (Nat.max_le.mpr ⟨hn, toNat_le_largest k⟩)]

theorem le_count (n : Nat) (t : CounterStep) : n ≤ t.count n := by
  cases t with
  | none => exact Nat.le_refl n
  | one => exact Nat.le_succ n
  | add k => exact Nat.le_add_right ..
  | atLeast k => exact Nat.le_max_left ..

theorem le_of_advance? (h : t.advance? n = some k) : n ≤ k := by
  rw [UInt32.le_iff_toNat_le, toNat_advance? h]
  exact Nat.le_min.mpr ⟨le_count _ t, toNat_le_largest n⟩

/-- What is above the largest word does not come back. -/
theorem min_count_min (n m : Nat) (t : CounterStep) :
    min (t.count (min n m)) m = min (t.count n) m := by
  cases t <;> simp only [count] <;> omega

theorem le_countAll (n : Nat) (ts : List CounterStep) : n ≤ countAll n ts := by
  induction ts generalizing n with
  | nil => exact Nat.le_refl n
  | cons t ts ih => exact Nat.le_trans (le_count n t) (ih _)

theorem min_countAll_min (n m : Nat) (ts : List CounterStep) :
    min (countAll (min n m) ts) m = min (countAll n ts) m := by
  induction ts generalizing n with
  | nil => simp [countAll]
  | cons t ts ih =>
    calc min (countAll (t.count (min n m)) ts) m
        = min (countAll (min (t.count (min n m)) m) ts) m := (ih _).symm
      _ = min (countAll (min (t.count n) m) ts) m := by rw [min_count_min]
      _ = min (countAll (t.count n) ts) m := ih _

theorem hasRoom_min_iff {n : Nat} :
    HasRoom (min n largestWord.toNat) ts ↔ HasRoom n ts := by
  induction ts generalizing n with
  | nil => exact Iff.rfl
  | cons t ts ih =>
    have hfirst : min n largestWord.toNat < largestWord.toNat ↔ n < largestWord.toNat := by omega
    rw [HasRoom, HasRoom, hfirst, ← ih (n := t.count (min n _)), min_count_min, ih]

/-- There is room for what fits into a word. -/
theorem hasRoom_of_countAll_le {n : Nat} {ts : List CounterStep}
    (h : countAll n ts ≤ largestWord.toNat) :
    HasRoom n ts := by
  induction ts generalizing n with
  | nil => trivial
  | cons t ts ih =>
    refine ⟨?_, ih h⟩
    rintro rfl
    exact Nat.le_trans (le_countAll _ ts) h

end CounterStep

/-- What a run does to the counters of a context. -/
inductive Counting where
  | instruction
  | call
  | add (calls instructions : UInt32)
  | atLeast (calls instructions : UInt32)
deriving Repr, DecidableEq

namespace Counting

def ofCalls : Counting → CounterStep
  | instruction => .none
  | call => .one
  | add calls _ => .add calls
  | atLeast calls _ => .atLeast calls

def ofInstructions : Counting → CounterStep
  | instruction => .one
  | call => .none
  | add _ instructions => .add instructions
  | atLeast _ instructions => .atLeast instructions

end Counting

namespace Context

open CounterStep (countAll)

def perform? (c : Context) : Counting → Option Context
  | .instruction => c.countInstruction?
  | .call => c.countCall?
  | .add calls instructions => some (c.addCounts calls instructions)
  | .atLeast calls instructions => some (c.maxCounts calls instructions)

def performAll? (c : Context) (ops : List Counting) : Option Context := ops.foldlM perform? c

/-- No counter is smaller than before. -/
def Ascends (c c' : Context) : Prop := c.calls ≤ c'.calls ∧ c.instructions ≤ c'.instructions

/-- Both counters have room for what the operations count singly. -/
def HasRoom (c : Context) (ops : List Counting) : Prop :=
  CounterStep.HasRoom c.calls.toNat (ops.map Counting.ofCalls) ∧
    CounterStep.HasRoom c.instructions.toNat (ops.map Counting.ofInstructions)

variable {c c' : Context} {op : Counting} {ops : List Counting}

/-- Both counters are counted on. -/
theorem isSome_perform?_iff (c : Context) (op : Counting) : (c.perform? op).isSome = true ↔
    (op.ofCalls.advance? c.calls).isSome = true ∧
      (op.ofInstructions.advance? c.instructions).isSome = true := by
  cases op with
  | instruction =>
    rw [perform?, countInstruction?, Option.isSome_map]
    exact ⟨fun h => ⟨rfl, h⟩, And.right⟩
  | call =>
    rw [perform?, countCall?, Option.isSome_map]
    exact ⟨fun h => ⟨h, rfl⟩, And.left⟩
  | add | atLeast => exact iff_of_true rfl ⟨rfl, rfl⟩

theorem counters_perform? (h : c.perform? op = some c') :
    op.ofCalls.advance? c.calls = some c'.calls ∧
      op.ofInstructions.advance? c.instructions = some c'.instructions := by
  cases op with
  | instruction =>
    obtain ⟨instructions, hnext, rfl⟩ := Option.map_eq_some_iff.mp h
    exact ⟨rfl, hnext⟩
  | call =>
    obtain ⟨calls, hnext, rfl⟩ := Option.map_eq_some_iff.mp h
    exact ⟨hnext, rfl⟩
  | add | atLeast =>
    cases h
    exact ⟨rfl, rfl⟩

theorem ascends_of_perform? (h : c.perform? op = some c') : c.Ascends c' := by
  obtain ⟨hcalls, hinstructions⟩ := counters_perform? h
  exact ⟨CounterStep.le_of_advance? hcalls, CounterStep.le_of_advance? hinstructions⟩

theorem performAll?_cons :
    c.performAll? (op :: ops) = (c.perform? op).bind (performAll? · ops) := by
  rw [performAll?, List.foldlM_cons]
  rfl

theorem isSome_performAll?_iff : (c.performAll? ops).isSome = true ↔ c.HasRoom ops := by
  induction ops generalizing c with
  | nil => exact iff_of_true rfl ⟨trivial, trivial⟩
  | cons op ops ih =>
    have hfirst := isSome_perform?_iff c op
    rw [CounterStep.isSome_advance?_iff, CounterStep.isSome_advance?_iff] at hfirst
    rw [performAll?_cons, HasRoom, List.map_cons, List.map_cons, CounterStep.HasRoom,
      CounterStep.HasRoom, and_and_and_comm, ← hfirst]
    cases hop : c.perform? op with
    | none => simp
    | some next =>
      obtain ⟨hcalls, hinstructions⟩ := counters_perform? hop
      rw [Option.bind_some, ih, HasRoom, CounterStep.toNat_advance? hcalls,
        CounterStep.toNat_advance? hinstructions, CounterStep.hasRoom_min_iff,
        CounterStep.hasRoom_min_iff]
      simp

theorem toNat_performAll? (h : c.performAll? ops = some c') :
    c'.calls.toNat =
        min (countAll c.calls.toNat (ops.map Counting.ofCalls)) largestWord.toNat ∧
      c'.instructions.toNat =
        min (countAll c.instructions.toNat (ops.map Counting.ofInstructions))
          largestWord.toNat := by
  induction ops generalizing c with
  | nil =>
    cases h
    exact ⟨(Nat.min_eq_left (CounterStep.toNat_le_largest _)).symm,
      (Nat.min_eq_left (CounterStep.toNat_le_largest _)).symm⟩
  | cons op ops ih =>
    rw [performAll?_cons] at h
    obtain ⟨next, hfirst, hrest⟩ := Option.bind_eq_some_iff.mp h
    obtain ⟨hcalls, hinstructions⟩ := counters_perform? hfirst
    have hnext := ih hrest
    rwa [CounterStep.toNat_advance? hcalls, CounterStep.toNat_advance? hinstructions,
      CounterStep.min_countAll_min, CounterStep.min_countAll_min] at hnext

/-- No operation that is carried out makes a counter smaller. A run comes to its end exactly if the
counters have room for what is counted singly, and they are then what was to be counted, up to the
largest word. There is room if all of it fits into a word. With a full counter the program stops. -/
theorem counts_run (c : Context) (ops : List Counting) :
    (∀ op c₁ c₂, perform? c₁ op = some c₂ → c₁.Ascends c₂) ∧
    ((c.performAll? ops).isSome = true ↔ c.HasRoom ops) ∧
    (∀ c', c.performAll? ops = some c' →
      c'.calls.toNat =
          min (countAll c.calls.toNat (ops.map Counting.ofCalls)) largestWord.toNat ∧
        c'.instructions.toNat =
          min (countAll c.instructions.toNat (ops.map Counting.ofInstructions))
            largestWord.toNat) ∧
    (countAll c.calls.toNat (ops.map Counting.ofCalls) ≤ largestWord.toNat →
      countAll c.instructions.toNat (ops.map Counting.ofInstructions) ≤ largestWord.toNat →
      c.HasRoom ops) ∧
    (c.calls = largestWord → c.perform? .call = none) ∧
    (c.instructions = largestWord → c.perform? .instruction = none) :=
  ⟨fun _ _ _ => ascends_of_perform?, isSome_performAll?_iff, fun _ => toNat_performAll?,
    fun hcalls hinstructions => ⟨CounterStep.hasRoom_of_countAll_le hcalls,
      CounterStep.hasRoom_of_countAll_le hinstructions⟩,
    countCall?_of_eq, countInstruction?_of_eq⟩

/-- A callee with full counters is added, and then one instruction or one call is counted. -/
theorem counts_run_full :
    let full := ({} : Context).addCounts largestWord largestWord
    ¬({} : Context).HasRoom [.add largestWord largestWord, .instruction, .call] ∧
      full.perform? .instruction = none ∧ full.perform? .call = none := by
  intro full
  obtain ⟨-, hroom, -⟩ := counts_run {} [.add largestWord largestWord, .instruction, .call]
  obtain ⟨-, -, -, -, hcall, hinstruction⟩ := counts_run full []
  exact ⟨fun h => absurd (hroom.mpr h) (by decide), hinstruction rfl, hcall rfl⟩

/-- What a method does that calls one with these counters twice. -/
def callsTwice (callee : Context) : List Counting :=
  [.instruction, .call, .add callee.calls callee.instructions,
    .instruction, .call, .add callee.calls callee.instructions, .instruction]

/-- The counters at the top of a tower of methods, each of which calls the next one twice. -/
def tower? : Nat → Option Context
  | 0 => performAll? {} [.instruction]
  | height + 1 => (tower? height).bind fun callee => performAll? {} (callsTwice callee)

/-- They double from one method to the next. -/
theorem toNat_tower? {height : Nat} (h : height ≤ 30) :
    ∃ c, tower? height = some c ∧ c.calls.toNat + 2 = 2 ^ (height + 1) ∧
      c.instructions.toNat + 3 = 2 ^ (height + 2) := by
  induction height with
  | zero => exact ⟨_, rfl, rfl, rfl⟩
  | succ height ih =>
    obtain ⟨callee, hcallee, hcalls, hinstructions⟩ := ih (Nat.le_of_succ_le h)
    have hbound : 2 ^ (height + 3) ≤ largestWord.toNat + 1 :=
      Nat.pow_le_pow_right (by decide) (by omega : height + 3 ≤ 32)
    have hdouble : 2 ^ (height + 2) = 2 * 2 ^ (height + 1) := Nat.pow_succ'
    have hdouble' : 2 ^ (height + 3) = 2 * 2 ^ (height + 2) := Nat.pow_succ'
    have hc : countAll ({} : Context).calls.toNat ((callsTwice callee).map Counting.ofCalls) =
        2 * callee.calls.toNat + 2 := by
      change countAll 0 _ = _
      simp only [callsTwice, List.map_cons, List.map_nil, Counting.ofCalls, countAll,
        List.foldl_cons, List.foldl_nil, CounterStep.count]
      omega
    have hi : countAll ({} : Context).instructions.toNat
        ((callsTwice callee).map Counting.ofInstructions) =
          2 * callee.instructions.toNat + 3 := by
      change countAll 0 _ = _
      simp only [callsTwice, List.map_cons, List.map_nil, Counting.ofInstructions, countAll,
        List.foldl_cons, List.foldl_nil, CounterStep.count]
      omega
    change ∃ c, tower? (height + 1) = some c ∧ c.calls.toNat + 2 = 2 ^ (height + 2) ∧
      c.instructions.toNat + 3 = 2 ^ (height + 3)
    generalize 2 ^ (height + 1) = x, 2 ^ (height + 2) = y, 2 ^ (height + 3) = z at *
    have hcfits : 2 * callee.calls.toNat + 2 ≤ largestWord.toNat := by omega
    have hifits : 2 * callee.instructions.toNat + 3 ≤ largestWord.toNat := by omega
    rw [← hc] at hcfits
    rw [← hi] at hifits
    have hroom : ({} : Context).HasRoom (callsTwice callee) :=
      ⟨CounterStep.hasRoom_of_countAll_le hcfits, CounterStep.hasRoom_of_countAll_le hifits⟩
    obtain ⟨c, hc'⟩ := Option.isSome_iff_exists.mp (isSome_performAll?_iff.mpr hroom)
    obtain ⟨hcalls', hinstructions'⟩ := toNat_performAll? hc'
    rw [Nat.min_eq_left hcfits, hc] at hcalls'
    rw [Nat.min_eq_left hifits, hi] at hinstructions'
    exact ⟨c, by rw [tower?, hcallee, Option.bind_some, hc'], by omega, by omega⟩

/-- So thirty-two methods of two calls each are enough: the last instruction of the topmost one is
counted when the counter is full. -/
theorem tower?_overflows : tower? 31 = none := by
  obtain ⟨callee, hcallee, -, hinstructions⟩ := toNat_tower? (Nat.le_refl 30)
  have hfull : callee.instructions = 4294967293 :=
    UInt32.toNat_inj.mp (Nat.add_right_cancel hinstructions)
  have hstops : ¬ ({} : Context).HasRoom (callsTwice callee) := by
    rintro ⟨-, -, -, -, -, -, -, hlast, -⟩
    have hlt := hlast rfl
    simp only [Counting.ofInstructions, CounterStep.count, hfull] at hlt
    exact absurd hlt (by decide)
  rw [tower?, hcallee, Option.bind_some]
  exact Option.not_isSome_iff_eq_none.mp fun h => hstops (isSome_performAll?_iff.mp h)

end Context

end SinkTrace
