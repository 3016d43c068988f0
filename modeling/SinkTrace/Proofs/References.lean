import Mathlib.Logic.Relation
import SinkTrace.Program
import SinkTrace.Proofs.Table

/-!
The closure of assembly references is exact, whatever order the references come in: an assembly
that was mentioned reaches itself and all that chains of recorded references lead to, and nothing
else.
-/

namespace SinkTrace

/-- A change of all values, which may depend on their keys. -/
theorem Table.get?_map {κ α β : Type} [DecidableEq κ] (f : κ → α → β) (t : Table κ α) (key : κ) :
    (Table.mk (t.entries.map fun (k, v) => (k, f k v))).get? key = (t.get? key).map (f key) := by
  obtain ⟨entries⟩ := t
  unfold get?
  induction entries with
  | nil => rfl
  | cons e entries ih =>
    obtain ⟨k, v⟩ := e
    by_cases hk : k = key
    · subst hk
      simp [find]
    · simp only [List.map_cons, find, hk, ↓reduceIte]
      exact ih

namespace Program

/-- On either side of a reference. -/
def Mentioned (edges : List (String × String)) (a : String) : Prop :=
  ∃ edge ∈ edges, a = edge.1 ∨ a = edge.2

/-- Through a chain of any number of references. -/
def Refers (edges : List (String × String)) : String → String → Prop :=
  Relation.ReflTransGen fun a b => (a, b) ∈ edges

/-- The references one after the other. -/
def addReferences (p : Program) (edges : List (String × String)) : Program :=
  edges.foldl (fun p edge => p.addReference edge.1 edge.2) p

/-- The table knows these assemblies, and for each of them exactly what it reaches. -/
structure Exact (edges : List (String × String)) (known : String → Prop)
    (t : Table String NameSet) : Prop where
  known : ∀ a, (t.get? a).isSome = true ↔ known a
  reached : ∀ {a closure}, t.get? a = some closure → ∀ b, b ∈ closure ↔ Refers edges a b

variable {edges : List (String × String)} {a b source target : String} {t : Table String NameSet}

theorem refers_self (edges : List (String × String)) (a : String) : Refers edges a a :=
  Relation.ReflTransGen.refl

/-- No chain starts at an assembly that was not mentioned. -/
theorem refers_of_not_mentioned (ha : ¬Mentioned edges a) : Refers edges a b ↔ b = a := by
  constructor
  · intro h
    rcases Relation.ReflTransGen.cases_head h with rfl | ⟨c, hc, -⟩
    · rfl
    · exact absurd ⟨_, hc, .inl rfl⟩ ha
  · rintro rfl
    exact refers_self edges b

theorem mentioned_concat :
    Mentioned (edges ++ [(source, target)]) a ↔ Mentioned edges a ∨ a = source ∨ a = target := by
  simp [Mentioned, or_and_right, exists_or]

/-- A chain uses the new reference at most once, unless it comes back to where it was before. -/
theorem refers_concat : Refers (edges ++ [(source, target)]) a b ↔
    Refers edges a b ∨ Refers edges a source ∧ Refers edges target b := by
  constructor
  · intro h
    induction h with
    | refl => exact .inl (refers_self edges a)
    | @tail b c _ hbc ih =>
      rcases List.mem_append.mp hbc with hold | hnew
      · exact ih.imp (fun h => h.tail hold) fun ⟨hs, ht⟩ => ⟨hs, ht.tail hold⟩
      · obtain ⟨rfl, rfl⟩ := Prod.mk.inj (List.mem_singleton.mp hnew)
        exact .inr ⟨ih.elim id And.left, refers_self edges c⟩
  · have hmono : ∀ {a b}, Refers edges a b → Refers (edges ++ [(source, target)]) a b :=
      fun h => Relation.ReflTransGen.mono (fun _ _ he => List.mem_append_left _ he) _ _ h
    rintro (h | ⟨hs, ht⟩)
    · exact hmono h
    · have hedge : (source, target) ∈ edges ++ [(source, target)] :=
        List.mem_append_right _ (List.mem_singleton_self _)
      exact ((hmono hs).tail hedge).trans (hmono ht)

/-! One reference. -/

/-- An assembly with what it is known to reach, known or not. -/
theorem Exact.mem_insert_self (he : Exact edges (Mentioned edges) t) (a b : String) :
    b ∈ NameSet.insert ((t.get? a).getD []) a ↔ Refers edges a b := by
  rw [NameSet.mem_insert]
  cases hg : t.get? a with
  | some closure =>
    rw [Option.getD_some, he.reached hg]
    exact or_iff_left_of_imp fun h => h ▸ refers_self edges a
  | none =>
    have ha : ¬Mentioned edges a := fun hm => by simpa [hg] using (he.known a).mpr hm
    rw [refers_of_not_mentioned ha]
    exact or_iff_right List.not_mem_nil

/-- First the target is made known. -/
theorem Exact.insert_target (he : Exact edges (Mentioned edges) t) (target : String) :
    Exact edges (fun a => Mentioned edges a ∨ a = target)
      (t.insert target (NameSet.insert ((t.get? target).getD []) target)) := by
  constructor
  · intro a
    rw [Table.get?_insert, ← he.known a]
    split <;> simp_all
  · intro a closure h
    rw [Table.get?_insert] at h
    split at h
    · rename_i ha
      cases ha
      cases h
      exact he.mem_insert_self target
    · exact he.reached h

/-- Then all that reaches the source reaches what the target reaches, the source above all. -/
theorem get?_addReference (p : Program) (source target a : String) :
    let reached := NameSet.insert ((p.references.get? target).getD []) target
    let extended := ((p.references.insert target reached).get? a).map fun closure =>
      if a == source || closure.elem source then NameSet.union closure reached else closure
    (p.addReference source target).references.get? a =
      if a = source then some (NameSet.union (NameSet.insert (extended.getD []) source) reached)
      else extended := by
  intro reached extended
  have hmap := Table.get?_map (fun name closure =>
    if name == source || closure.elem source then NameSet.union closure reached else closure)
    (p.references.insert target reached)
  unfold addReference
  rw [Table.get?_insert]
  split
  · rename_i ha
    cases ha
    exact congrArg
      (fun o => some (NameSet.union (NameSet.insert (Option.getD o []) source) reached))
      (hmap source)
  · exact hmap a

theorem Exact.addReference {p : Program} (he : Exact edges (Mentioned edges) p.references)
    (source target : String) : Exact (edges ++ [(source, target)])
      (Mentioned (edges ++ [(source, target)])) (p.addReference source target).references := by
  have hreached := he.mem_insert_self target
  have hbefore := he.insert_target target
  have hget := p.get?_addReference source target
  simp only at hget
  generalize NameSet.insert ((p.references.get? target).getD []) target = reached
    at hreached hbefore hget
  generalize p.references.insert target reached = before at hbefore hget
  constructor
  · intro a
    rw [hget a, mentioned_concat]
    split
    · rename_i ha
      simp [ha]
    · rename_i ha
      rw [Option.isSome_map, hbefore.known a]
      simp [ha]
  · intro a closure h b
    rw [hget a] at h
    rw [refers_concat]
    split at h
    · rename_i ha
      cases ha
      cases h
      rw [NameSet.mem_union, NameSet.mem_insert, hreached,
        and_iff_right (refers_self edges source)]
      cases hs : before.get? source with
      | none =>
        have hnew : ¬Mentioned edges source := fun hm => by
          simpa [hs] using (hbefore.known source).mpr (.inl hm)
        simp [refers_of_not_mentioned hnew]
      | some old =>
        have hself : b = source → Refers edges source b := fun h => h ▸ refers_self edges source
        simp only [Option.map_some, beq_self_eq_true, Bool.true_or, ↓reduceIte, Option.getD_some,
          NameSet.mem_union, hbefore.reached hs, hreached]
        exact ⟨fun h => h.elim (fun h => h.elim id fun h => .inl (hself h)) .inr,
          fun h => .inl (.inl h)⟩
    · rename_i ha
      obtain ⟨old, hs, rfl⟩ := Option.map_eq_some_iff.mp h
      have hsource : old.elem source = true ↔ Refers edges a source := by
        rw [List.elem_eq_mem, decide_eq_true_iff, hbefore.reached hs]
      rw [beq_eq_false_iff_ne.mpr ha, Bool.false_or]
      split
      · rename_i hin
        rw [NameSet.mem_union, hbefore.reached hs, hreached, and_iff_right (hsource.mp hin)]
      · rename_i hout
        rw [hbefore.reached hs]
        exact (or_iff_left fun h => hout (hsource.mpr h.1)).symm

/-! Any number of references. -/

theorem Exact.addReferences {p : Program} (he : Exact edges (Mentioned edges) p.references)
    (more : List (String × String)) : Exact (edges ++ more) (Mentioned (edges ++ more))
      (p.addReferences more).references := by
  induction more generalizing p edges with
  | nil =>
    rw [List.append_nil]
    exact he
  | cons edge more ih =>
    have hnext := ih (he.addReference edge.1 edge.2)
    rwa [List.append_assoc] at hnext

theorem exact_empty : Exact [] (Mentioned []) {} := by
  constructor
  · intro a
    simp [Table.get?, Table.find, Mentioned]
  · intro a closure h
    simp [Table.get?, Table.find] at h

/-- After any sequence of references an assembly is known if it was on either side of one of them,
and then it reaches what a chain of any number of them leads to. -/
theorem reachable?_addReferences {p : Program} (hp : p.references = {})
    (edges : List (String × String)) (a : String) :
    (((p.addReferences edges).reachable? a).isSome = true ↔
      ∃ edge ∈ edges, a = edge.1 ∨ a = edge.2) ∧
    ∀ closure, (p.addReferences edges).reachable? a = some closure → ∀ b, b ∈ closure ↔
      Relation.ReflTransGen (fun source target => (source, target) ∈ edges) a b := by
  have he := (hp ▸ exact_empty : Exact [] (Mentioned []) p.references).addReferences edges
  exact ⟨he.known a, fun closure h => he.reached h⟩

/-- A cycle that the last reference closes, behind a reference to itself and one that leads on. -/
def ring : List (String × String) :=
  [("core", "core"), ("app", "core"), ("plugin", "app"), ("core", "plugin")]

theorem reachable?_ring : ({} : Program).references = {} ∧
    ∃ closure, (addReferences {} ring).reachable? "core" = some closure ∧ "app" ∈ closure := by
  have hp : ({} : Program).references = {} := rfl
  obtain ⟨hknown, hreached⟩ := reachable?_addReferences hp ring "core"
  have hcore : ((addReferences {} ring).reachable? "core").isSome = true :=
    hknown.mpr ⟨("core", "core"), by simp [ring], .inl rfl⟩
  obtain ⟨closure, hc⟩ := Option.isSome_iff_exists.mp hcore
  refine ⟨hp, closure, hc, (hreached closure hc "app").mpr ?_⟩
  have hplugin : ("core", "plugin") ∈ ring := by simp [ring]
  have happ : ("plugin", "app") ∈ ring := by simp [ring]
  exact .tail (.single hplugin) happ

end Program

end SinkTrace
