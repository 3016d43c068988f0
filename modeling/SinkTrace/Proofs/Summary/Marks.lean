import SinkTrace.Proofs.Heap.BreadthFirst
import SinkTrace.Summary.Fingerprint

/-!
Marks can be read back. What the marks of an entity tell about it is its shape; where the marks of
one thing end is seen from the marks themselves, so a row of them tells every shape in it.
-/

namespace SinkTrace

namespace Fingerprint

variable {α : Type}

/-- Where the marks of one thing end does not depend on what follows them. -/
def PrefixFree (marks : α → Fingerprint) : Prop :=
  ∀ {a b : α} {xs ys : Fingerprint}, marks a ++ xs = marks b ++ ys → a = b ∧ xs = ys

theorem PrefixFree.flatMap_of_length {marks : α → Fingerprint} (hm : PrefixFree marks)
    {as bs : List α} (hl : as.length = bs.length) {xs ys : Fingerprint}
    (he : as.flatMap marks ++ xs = bs.flatMap marks ++ ys) : as = bs ∧ xs = ys := by
  induction as generalizing bs with
  | nil =>
    rw [List.length_nil, eq_comm, List.length_eq_zero_iff] at hl
    subst hl
    exact ⟨rfl, he⟩
  | cons a as ih =>
    obtain ⟨b, bs, rfl⟩ := List.exists_cons_of_length_eq_add_one hl.symm
    rw [List.flatMap_cons, List.flatMap_cons, List.append_assoc, List.append_assoc] at he
    obtain ⟨rfl, htail⟩ := hm he
    obtain ⟨rfl, hrest⟩ := ih (Nat.succ.inj hl) htail
    exact ⟨rfl, hrest⟩

/-- Nothing has to say how many there are if none of them is without marks. -/
theorem PrefixFree.flatMap_injective {marks : α → Fingerprint} (hm : PrefixFree marks)
    (hne : ∀ a, marks a ≠ []) {as bs : List α} (he : as.flatMap marks = bs.flatMap marks) :
    as = bs := by
  induction as generalizing bs with
  | nil =>
    cases bs with
    | nil => rfl
    | cons b bs => simp [hne] at he
  | cons a as ih =>
    cases bs with
    | nil => simp [hne] at he
    | cons b bs =>
      rw [List.flatMap_cons, List.flatMap_cons] at he
      obtain ⟨rfl, htail⟩ := hm he
      rw [ih htail]

theorem prefixFree_optional : PrefixFree optional := by
  rintro (_ | m) (_ | n) xs ys he
  · simpa [optional] using he
  · simp [optional] at he
  · simp [optional] at he
  · simpa [optional] using he

/-- Marks of a root, from the number of the entity it stands for. -/
def rootMarks : Option (Option Nat) → Fingerprint
  | none => [.number 0]
  | some number => .number 1 :: optional number

theorem prefixFree_rootMarks : PrefixFree rootMarks := by
  rintro (_ | m) (_ | n) xs ys he
  · simpa [rootMarks] using he
  · simp [rootMarks] at he
  · simp [rootMarks] at he
  · obtain ⟨rfl, hrest⟩ := prefixFree_optional (List.cons.inj he).2
    exact ⟨rfl, hrest⟩

/-- Marks of a field, from its name and the number of the entity it leads to. -/
def fieldMarks (field : FieldName × Option Nat) : Fingerprint := .text field.1 :: optional field.2

/-- The fields end where no name follows. -/
theorem fieldMarks_append_inj {as bs : List (FieldName × Option Nat)} {m n : Nat}
    {xs ys : Fingerprint} (he : as.flatMap fieldMarks ++ .number m :: xs =
      bs.flatMap fieldMarks ++ .number n :: ys) : as = bs ∧ m = n ∧ xs = ys := by
  induction as generalizing bs with
  | nil =>
    cases bs with
    | nil => simpa using he
    | cons b bs => simp [fieldMarks] at he
  | cons a as ih =>
    cases bs with
    | nil => simp [fieldMarks] at he
    | cons b bs =>
      obtain ⟨k, a⟩ := a
      obtain ⟨k', b⟩ := b
      rw [List.flatMap_cons, List.flatMap_cons, List.append_assoc, List.append_assoc, fieldMarks,
        fieldMarks, List.cons_append, List.cons_append, List.cons.injEq, Mark.text.injEq] at he
      obtain ⟨rfl, hfield⟩ := he
      obtain ⟨rfl, htail⟩ := prefixFree_optional hfield
      obtain ⟨rfl, hrest⟩ := ih htail
      exact ⟨rfl, hrest⟩

/-- What the marks of an entity tell about it. -/
structure Shape where
  taint : TaintId
  deep : Bool
  /-- Names, and numbers of the entities they lead to. -/
  fields : List (FieldName × Option Nat)
  calls : List Signature
  inputs : Nat
  taints : Nat
deriving DecidableEq

def Shape.marks (p : Shape) : Fingerprint :=
  .number p.taint :: .flag p.deep :: (p.fields.flatMap fieldMarks ++ .number p.calls.length ::
    (p.calls.map Mark.text ++ [.number p.inputs, .number p.taints]))

theorem Shape.prefixFree_marks : PrefixFree Shape.marks := by
  rintro ⟨t, d, fs, cs, i, n⟩ ⟨t', d', fs', cs', i', n'⟩ xs ys he
  simp only [Shape.marks, List.cons_append, List.append_assoc, List.cons.injEq, Mark.number.injEq,
    Mark.flag.injEq] at he
  obtain ⟨rfl, rfl, hfields⟩ := he
  obtain ⟨rfl, hl, hcalls⟩ := fieldMarks_append_inj hfields
  obtain ⟨hc, hcounts⟩ := List.append_inj hcalls (by simpa using hl)
  obtain rfl := (List.map_injective_iff.mpr fun _ _ => Mark.text.inj) hc
  simp only [List.nil_append, List.cons.injEq, Mark.number.injEq] at hcounts
  obtain ⟨rfl, rfl, hrest⟩ := hcounts
  exact ⟨rfl, hrest⟩

/-- The shape of an entity whose fields lead to entities with these numbers. -/
def shape (canonical : TaintId → TaintId) (h : Heap) (numbers : IdMap Nat) (d : EntityId) :
    Shape where
  taint := canonical (h.taint d)
  deep := (h.entity d).deep
  fields := (h.outline d).map (Prod.map id numbers.get?)
  calls := targetNames (h.entity d)
  inputs := (h.entity d).deferredInput.size
  taints := (h.entity d).deferredTaint.length

theorem ofEntity_eq (canonical : TaintId → TaintId) (h : Heap) (numbers : IdMap Nat)
    (d : EntityId) : ofEntity canonical h numbers d = (shape canonical h numbers d).marks := by
  have hfields : (h.entity d).sortedFields.flatMap (ofField h numbers) =
      (shape canonical h numbers d).fields.flatMap fieldMarks := by
    simp only [shape, Heap.outline, List.flatMap_map]
    rfl
  simp [ofEntity, hfields, Shape.marks, shape, Heap.taint]

theorem ofRoot_eq (h : Heap) (numbers : IdMap Nat) (root : Option EntityId) :
    ofRoot h numbers root = rootMarks ((root.map h.find).map numbers.get?) := by
  cases root <;> rfl

end Fingerprint

namespace MethodSummary

variable {canonical canonical' : TaintId → TaintId} {s s' : MethodSummary}

/-- The entities that the roots stand for. -/
def anchors (s : MethodSummary) : List (Option EntityId) := s.roots.map (Option.map s.heap.find)

/-- The entities below the roots in the order of their numbers. -/
def order (s : MethodSummary) : List EntityId := s.heap.reachableFrom (s.roots.filterMap id)

def numbers (s : MethodSummary) : IdMap Nat := Fingerprint.numbering s.order

def rootNumbers (s : MethodSummary) : List (Option (Option Nat)) :=
  s.anchors.map (Option.map s.numbers.get?)

def shapes (canonical : TaintId → TaintId) (s : MethodSummary) : List Fingerprint.Shape :=
  s.order.map (Fingerprint.shape canonical s.heap s.numbers)

theorem fingerprint_computed (canonical : TaintId → TaintId) (s : MethodSummary) :
    (Summary.computed s).fingerprint canonical = .number 1 ::
      (s.rootNumbers.flatMap Fingerprint.rootMarks ++
        (s.shapes canonical).flatMap Fingerprint.Shape.marks) := by
  have hroots : s.roots.flatMap (Fingerprint.ofRoot s.heap s.numbers) =
      s.rootNumbers.flatMap Fingerprint.rootMarks := by
    simp only [rootNumbers, anchors, List.flatMap_map, ← Fingerprint.ofRoot_eq]
  have hentities : s.order.flatMap (Fingerprint.ofEntity canonical s.heap s.numbers) =
      (s.shapes canonical).flatMap Fingerprint.Shape.marks := by
    simp only [shapes, List.flatMap_map, ← Fingerprint.ofEntity_eq]
  rw [← hroots, ← hentities]
  rfl

/-- With as many roots, the marks agree if the roots have the same numbers and the entities, in
the order of their numbers, the same shapes. -/
theorem fingerprint_eq_iff_shapes (hl : s.roots.length = s'.roots.length) :
    (Summary.computed s).fingerprint canonical = (Summary.computed s').fingerprint canonical' ↔
      s.rootNumbers = s'.rootNumbers ∧ s.shapes canonical = s'.shapes canonical' := by
  rw [fingerprint_computed, fingerprint_computed, List.cons.injEq]
  constructor
  · rintro ⟨-, he⟩
    have hlength : s.rootNumbers.length = s'.rootNumbers.length := by
      simpa [rootNumbers, anchors] using hl
    obtain ⟨hr, hs⟩ := Fingerprint.prefixFree_rootMarks.flatMap_of_length hlength he
    exact ⟨hr, Fingerprint.Shape.prefixFree_marks.flatMap_injective
      (fun p => by simp [Fingerprint.Shape.marks]) hs⟩
  · rintro ⟨hr, hs⟩
    rw [hr, hs]
    exact ⟨rfl, rfl⟩

end MethodSummary

end SinkTrace
